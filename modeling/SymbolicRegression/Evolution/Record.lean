import SymbolicRegression.Decimal.Places
import SymbolicRegression.Evolution.Individual

/-!
What is recorded about a run: figures for every generation, and the run as a whole.
-/

namespace SymbolicRegression

/-- A time in milliseconds: seconds and the rest of them are put together first. -/
def milliseconds (nanoseconds : Nat) : Float :=
  (Float.ofNat (nanoseconds / 1000000000) + Float.ofNat (nanoseconds % 1000000000) / 1e9) * 1000.0

structure GenerationRecord where
  /-- Zero is the first population. -/
  generation : Nat
  evaluations : Nat
  bestFitness : Float
  bestLoss : Float
  meanFitness : Float
  medianFitness : Float
  meanSize : Float
  unfit : Nat
  /-- The score of the best program so far on validation data. -/
  validation : Option Float
  elapsed : Float

namespace GenerationRecord

/-- The finite fitnesses in ascending order.  Sums over them do not depend on the order
of the individuals. -/
def fitnesses (individuals : List Individual) : List Float :=
  let finite := individuals.filterMap fun i => i.fitness.filter (·.isFinite)
  finite.mergeSort fun a b => Binary64.rank a b != .gt

/-- The mean, infinite for no values. -/
def mean (values : List Float) : Float :=
  if values.isEmpty then Binary64.infinity else Scalar.sum values / Float.ofNat values.length

/-- The middle of values in ascending order, infinite for no values. -/
def median (values : List Float) : Float :=
  let n := values.length
  let middle (i : Nat) : Float := values.getD i Binary64.infinity
  if n = 0 then Binary64.infinity
  else if n % 2 = 0 then (middle (n / 2 - 1) + middle (n / 2)) / 2.0
  else middle (n / 2)

def leader? (individuals : List Individual) : Option Individual :=
  individuals.foldl (fun known i => some (Individual.improve known i)) none

def ofIndividuals (individuals : List Individual) (generation evaluations : Nat) :
    GenerationRecord :=
  let leader := leader? individuals
  let finite := fitnesses individuals
  let count := individuals.length
  { generation
    evaluations
    bestFitness := (leader.map (·.fitnessOrWorst)).getD Binary64.infinity
    bestLoss := (leader.bind (·.loss)).getD Binary64.infinity
    meanFitness := mean finite
    medianFitness := median finite
    meanSize :=
      if count = 0 then 0.0
      else Float.ofNat (individuals.foldl (fun n i => n + i.program.size) 0) / Float.ofNat count
    unfit := count - finite.length
    validation := none
    elapsed := 0.0 }

/-- Equality in which numbers are compared as numbers. -/
def same (a b : GenerationRecord) : Bool :=
  a.generation == b.generation && a.evaluations == b.evaluations &&
  a.bestFitness == b.bestFitness && a.bestLoss == b.bestLoss &&
  a.meanFitness == b.meanFitness && a.medianFitness == b.medianFitness &&
  a.meanSize == b.meanSize && a.unfit == b.unfit && a.validation == b.validation &&
  a.elapsed == b.elapsed

/-! ### JSON -/

def names : List String :=
  ["generation", "evaluations", "best_fitness", "best_loss", "mean_fitness", "median_fitness",
   "mean_size", "unfit", "val_score", "elapsed_ms"]

def toJson (r : GenerationRecord) : Json :=
  .record (names.zip [.ofNat r.generation, .ofNat r.evaluations, .ofFloat r.bestFitness,
    .ofFloat r.bestLoss, .ofFloat r.meanFitness, .ofFloat r.medianFitness, .ofFloat r.meanSize,
    .ofNat r.unfit, .ofOption .ofFloat r.validation, .ofFloat r.elapsed])

def ofJson (j : Json) : Except JsonFault GenerationRecord := do
  let slots ← Json.slots names j
  return {
    generation := ← Json.field Json.toNat slots 0
    evaluations := ← Json.field Json.toNat slots 1
    bestFitness := ← Json.field Json.toFloat slots 2
    bestLoss := ← Json.field Json.toFloat slots 3
    meanFitness := ← Json.field Json.toFloat slots 4
    medianFitness := ← Json.field Json.toFloat slots 5
    meanSize := ← Json.field Json.toFloat slots 6
    unfit := ← Json.field Json.toNat slots 7
    validation := ← Json.field? Json.toFloat slots 8
    elapsed := ← Json.field Json.toFloat slots 9 }

end GenerationRecord

structure RunRecord where
  generations : List GenerationRecord
  runtime : Float
  reason : Option String

namespace RunRecord

def empty : RunRecord := ⟨[], 0.0, none⟩

def add (r : RunRecord) (g : GenerationRecord) : RunRecord :=
  { r with generations := r.generations ++ [g] }

def history (r : RunRecord) : List Float := r.generations.map (·.bestFitness)

def final? (r : RunRecord) : Option Float := r.history.getLast?

def summary (r : RunRecord) : String :=
  "\n".intercalate [
    "Evolution Summary:",
    s!"- Generations: {r.generations.length}",
    "- Final best: " ++ Decimal.fixed 6 (r.final?.getD Binary64.infinity),
    "- Runtime: " ++ Decimal.fixed 2 r.runtime ++ "ms",
    "- Termination: " ++ r.reason.getD "unknown"]

def same (a b : RunRecord) : Bool :=
  a.generations.length == b.generations.length &&
  (List.zipWith GenerationRecord.same a.generations b.generations).all id

def names : List String := ["generations", "total_runtime_ms", "termination_reason"]

def toJson (r : RunRecord) : Json :=
  .record (names.zip [.array (r.generations.map (·.toJson)), .ofFloat r.runtime,
    .ofOption .text r.reason])

def ofJson (j : Json) : Except JsonFault RunRecord := do
  let slots ← Json.slots names j
  return {
    generations := ← Json.field (Json.toList GenerationRecord.ofJson) slots 0
    runtime := ← Json.field Json.toFloat slots 1
    reason := ← Json.field? Json.toText slots 2 }

end RunRecord

end SymbolicRegression
