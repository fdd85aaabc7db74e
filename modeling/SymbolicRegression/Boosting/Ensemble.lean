import SymbolicRegression.Program.Evaluation
import SymbolicRegression.Program.Printer
import SymbolicRegression.Program.Stored

/-!
Ensembles: a constant and programs with steps, which are added up in the order in
which they were fitted.
-/

namespace SymbolicRegression

structure Learner where
  program : Program
  /-- The factor of the program's values. -/
  step : Float

/-- Equality in which numbers are compared as numbers. -/
def Learner.same (l k : Learner) : Bool := l.program.same k.program && l.step == k.step

structure Ensemble where
  base : Float
  learners : List Learner

namespace Ensemble

def ofBase (base : Float) : Ensemble := ⟨base, []⟩

def size (e : Ensemble) : Nat := e.learners.length

def push (e : Ensemble) (program : Program) (step : Float) : Ensemble :=
  { e with learners := e.learners ++ [⟨program, step⟩] }

def truncate (e : Ensemble) (n : Nat) : Ensemble := { e with learners := e.learners.take n }

/-- Predictions with the values of one more learner. -/
def accumulate (step : Float) (pred values : List Float) : List Float :=
  List.zipWith (fun p h => p + step * h) pred values

def predict (e : Ensemble) (d : Dataset) : Except Failure (List Float) :=
  e.learners.foldlM
    (fun pred l => do return accumulate l.step pred (← l.program.predict d))
    (List.replicate d.rowCount e.base)

def predictRow (e : Ensemble) (row : List Float) : Except Failure Float :=
  e.learners.foldlM (fun sum l => do return sum + l.step * (← l.program.predictRow row)) e.base

def text (e : Ensemble) : String :=
  " + ".intercalate (Decimal.exactText e.base ::
    e.learners.map fun l => Decimal.exactText l.step ++ " * " ++ l.program.text)

/-- Equality in which numbers are compared as numbers. -/
def same (a b : Ensemble) : Bool :=
  a.base == b.base && a.size == b.size &&
  (List.zipWith Learner.same a.learners b.learners).all id

/-! ### JSON -/

def toJson (e : Ensemble) : Except JsonFault Json := do
  let learners ← e.learners.mapM fun l => do
    return Json.record [("program", ← l.program.toJson), ("step", .ofFloat l.step)]
  return .record [("base", .ofFloat e.base), ("learners", .array learners)]

def json (e : Ensemble) : Except Error String := (e.toJson.map Json.compact).mapError Error.json

/-- A learner; `nested` says that it is a part of a value that was read as a whole before. -/
def learnerOfJson (nested : Bool) (j : Json) : Except JsonFault Learner := do
  let put (l : Option Program × Option Float) (i : Nat) (j : Json) :
      Except JsonFault (Option Program × Option Float) := do
    if i = 0 then return (some (← Program.ofJson nested j), l.2)
    else return (l.1, some (← j.toFloat))
  match ← Json.visitRecord ["program", "step"] put (none, none) j with
  | (some program, some step) => return { program, step }
  | _ => Json.malformed

/-- The ensemble of a JSON value.  The fields are decoded in the order in which they come,
so the first fault of the text is the one that is reported. -/
def ofJson (nested : Bool) (j : Json) : Except JsonFault Ensemble := do
  let put (e : Option Float × Option (List Learner)) (i : Nat) (j : Json) :
      Except JsonFault (Option Float × Option (List Learner)) := do
    if i = 0 then return (some (← j.toFloat), e.2)
    else return (e.1, some (← j.toList (learnerOfJson nested)))
  match ← Json.visitRecord ["base", "learners"] put (none, none) j with
  | (some base, some learners) => return { base, learners }
  | _ => Json.malformed

def ofJsonText (s : String) : Except Error Ensemble :=
  (Json.decodeText (ofJson false) s).mapError Error.json

end Ensemble

end SymbolicRegression
