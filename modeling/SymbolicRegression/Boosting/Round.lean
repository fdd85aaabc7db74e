import SymbolicRegression.Json.Decode

/-!
What is recorded about a round of boosting.
-/

namespace SymbolicRegression

structure RoundRecord where
  /-- The first round is number one. -/
  round : Nat
  step : Float
  training : Float
  /-- The score on validation data, at a checkpoint. -/
  validation : Option Float
  learners : Nat

namespace RoundRecord

/-- Equality in which numbers are compared as numbers. -/
def same (a b : RoundRecord) : Bool :=
  a.round == b.round && a.step == b.step && a.training == b.training &&
  a.validation == b.validation && a.learners == b.learners

/-- Two lists of rounds are equal in the same sense. -/
def sameList (a b : List RoundRecord) : Bool :=
  a.length == b.length && (List.zipWith same a b).all id

def names : List String := ["round", "step", "train_loss", "val_score", "n_learners"]

def toJson (r : RoundRecord) : Json :=
  .record (names.zip [.ofNat r.round, .ofFloat r.step, .ofFloat r.training,
    .ofOption .ofFloat r.validation, .ofNat r.learners])

def ofJson (j : Json) : Except JsonFault RoundRecord := do
  let slots ← Json.slots names j
  return {
    round := ← Json.field Json.toNat slots 0
    step := ← Json.field Json.toFloat slots 1
    training := ← Json.field Json.toFloat slots 2
    validation := ← Json.field? Json.toFloat slots 3
    learners := ← Json.field Json.toNat slots 4 }

end RoundRecord

end SymbolicRegression
