import SymbolicRegression.Json.Decode
import SymbolicRegression.Numeric.Binary64
import SymbolicRegression.Program.Stored

/-!
Individuals: programs with what is known about their fitness.  Less is better, and
infinity marks a program that could not be scored.
-/

namespace SymbolicRegression

structure Evaluation where
  /-- The loss and the penalty for size. -/
  fitness : Float
  loss : Float

namespace Evaluation

/-- The evaluation of a program without a finite score. -/
def unfit : Evaluation := ⟨Binary64.infinity, Binary64.infinity⟩

def isFit (e : Evaluation) : Bool := e.fitness.isFinite

def same (a b : Evaluation) : Bool := a.fitness == b.fitness && a.loss == b.loss

def toJson (e : Evaluation) : Json :=
  .record [("fitness", .ofFloat e.fitness), ("loss", .ofFloat e.loss)]

def ofJson (j : Json) : Except JsonFault Evaluation := do
  let slots ← Json.slots ["fitness", "loss"] j
  return { fitness := ← Json.field Json.toFloat slots 0, loss := ← Json.field Json.toFloat slots 1 }

end Evaluation

/-- A program of a population; fitness and loss are missing until it is evaluated. -/
structure Individual where
  program : Program
  fitness : Option Float
  loss : Option Float
  birth : Nat

namespace Individual

def ofProgram (program : Program) (birth : Nat) : Individual :=
  { program, fitness := none, loss := none, birth }

def isEvaluated (i : Individual) : Bool := i.fitness.isSome

def fitnessOrWorst (i : Individual) : Float := i.fitness.getD Binary64.infinity

def withEvaluation (i : Individual) (e : Evaluation) : Individual :=
  { i with fitness := some e.fitness, loss := some e.loss }

/-- The order of individuals: by fitness, and at equal fitness by size. -/
def compare (a b : Individual) : Ordering :=
  (Binary64.rank a.fitnessOrWorst b.fitnessOrWorst).then (Ord.compare a.program.size b.program.size)

def isBetterThan (a b : Individual) : Bool := a.compare b == .lt

def best? : List Individual → Option Individual
  | [] => none
  | i :: is => some (is.foldl (fun best j => if best.compare j == .gt then j else best) i)

/-- The better of a known best individual and a candidate; the known one stays if the
candidate is not strictly better. -/
def improve (known : Option Individual) (candidate : Individual) : Individual :=
  match known with
  | some best => if candidate.isBetterThan best then candidate else best
  | none => candidate

/-- Equality in which numbers are compared as numbers. -/
def same (a b : Individual) : Bool :=
  a.program.same b.program && a.fitness == b.fitness && a.loss == b.loss && a.birth == b.birth

/-! ### JSON -/

def toJson (i : Individual) : Except JsonFault Json := do
  return .record [("program", ← i.program.toJson), ("fitness", .ofOption .ofFloat i.fitness),
    ("loss", .ofOption .ofFloat i.loss), ("birth_generation", .ofNat i.birth)]

structure Draft where
  program : Option Program
  fitness : Option Float
  loss : Option Float
  birth : Option Nat

def Draft.put (d : Draft) (i : Nat) (j : Json) : Except JsonFault Draft :=
  match i with
  | 0 => do return { d with program := some (← Program.ofJson false j) }
  | 1 => do return { d with fitness := ← Json.toOption Json.toFloat j }
  | 2 => do return { d with loss := ← Json.toOption Json.toFloat j }
  | _ => do return { d with birth := some (← Json.toNat j) }

def ofJson (j : Json) : Except JsonFault Individual := do
  let d ← Json.visitRecord ["program", "fitness", "loss", "birth_generation"] Draft.put
    ⟨none, none, none, none⟩ j
  match d.program, d.birth with
  | some program, some birth => return { program, fitness := d.fitness, loss := d.loss, birth }
  | _, _ => Json.malformed

end Individual

end SymbolicRegression
