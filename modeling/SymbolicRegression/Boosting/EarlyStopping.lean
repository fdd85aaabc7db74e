import SymbolicRegression.Numeric.Scalar

/-!
Early stopping: checkpoints are watched for improvement, and training stops when too
many of them in a row bring none.
-/

namespace SymbolicRegression

structure EarlyStopping (α : Type) where
  /-- How many checkpoints without improvement stop the training; zero for never. -/
  patience : Nat
  higherIsBetter : Bool
  /-- The best value and the number of learners at its checkpoint. -/
  best : Option (α × Nat)
  waited : Nat

namespace EarlyStopping

variable {α : Type} [Comparable α]

def start (patience : Nat) (higherIsBetter : Bool) : EarlyStopping α :=
  { patience, higherIsBetter, best := none, waited := 0 }

/-- A finite value improves if it is strictly better than the best one. -/
def improves (e : EarlyStopping α) (value : α) : Bool :=
  Comparable.isFinite value &&
    match e.best with
    | none => true
    | some (best, _) =>
      if e.higherIsBetter then Comparable.less best value else Comparable.less value best

/-- Notes a checkpoint with so many learners. -/
def note (e : EarlyStopping α) (value : α) (learners : Nat) : EarlyStopping α :=
  if e.improves value then { e with best := some (value, learners), waited := 0 }
  else { e with waited := e.waited + 1 }

def isExhausted (e : EarlyStopping α) : Bool :=
  decide (0 < e.patience) && decide (e.patience ≤ e.waited)

def bestValue (e : EarlyStopping α) : Option α := e.best.map (·.1)

/-- The number of learners at the best checkpoint, zero if there was none. -/
def bestCount (e : EarlyStopping α) : Nat := (e.best.map (·.2)).getD 0

end EarlyStopping

end SymbolicRegression
