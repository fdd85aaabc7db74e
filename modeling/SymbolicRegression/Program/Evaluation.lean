import SymbolicRegression.Dataset
import SymbolicRegression.Program.Basic

/-!
Values of programs, for all rows of a table at once or for a single row.  The
unchecked functions expect every feature to exist; the predictions check first.
-/

namespace SymbolicRegression
namespace Program

mutual

def evaluate (d : Dataset) : Program → Except Misuse (List Float)
  | feature i => d.column i
  | constant c => .ok (List.replicate d.rowCount c)
  | call op ps => do op.applyColumns (← evaluateAll d ps)

def evaluateAll (d : Dataset) : List Program → Except Misuse (List (List Float))
  | [] => .ok []
  | p :: ps => do
    let values ← p.evaluate d
    return values :: (← evaluateAll d ps)

end

mutual

/-- The value on one row of feature values. -/
def evaluateRow (row : List Float) : Program → Except Misuse Float
  | feature i => memberAt row i
  | constant c => .ok c
  | call op ps => do op.apply (← evaluateRowAll row ps)

def evaluateRowAll (row : List Float) : List Program → Except Misuse (List Float)
  | [] => .ok []
  | p :: ps => do
    let value ← p.evaluateRow row
    return value :: (← evaluateRowAll row ps)

end

/-- Fails unless every feature of the program is below `count`. -/
def checkFeatures (p : Program) (count : Nat) : Except Error Unit :=
  match p.maxFeature? with
  | some i => if i < count then .ok () else misconfigured (.missingFeature i count)
  | none => .ok ()

def predict (p : Program) (d : Dataset) : Except Failure (List Float) := do
  p.checkFeatures d.featureCount
  p.evaluate d

def predictRow (p : Program) (row : List Float) : Except Failure Float := do
  p.checkFeatures row.length
  p.evaluateRow row

end Program

end SymbolicRegression
