import SymbolicRegression.Metric.Classification

/-!
The area under the receiver operating characteristic: the weighted share of pairs of
a positive and a negative row that the predictions put in the right order, a pair
with equal predictions counting for one half.

Rows are sorted by prediction and taken in groups of numerically equal predictions.
Only the comparisons of targets and predictions are used, so both may be of other types
than the weights.
-/

namespace SymbolicRegression
namespace Metric
namespace Roc

open Comparable Scalar

variable {α β : Type} [Scalar α] [Comparable β]

structure Row (α β : Type) where
  pred : β
  positive : Bool
  weight : α

/-- What has been swept from below: the weight of both classes and the weighted
number of pairs in order. -/
structure Sweep (α : Type) where
  negative : α
  positive : α
  area : α

def sorted (rows : List (Row α β)) : List (Row α β) :=
  rows.mergeSort fun a b => rank a.pred b.pred != .gt

def classWeight (positive : Bool) (rows : List (Row α β)) : α :=
  (rows.filter (·.positive == positive)).foldl (fun acc r => acc + r.weight) (ofNat 0)

/-- A group of equal predictions: its positive rows stand above all negative rows
swept so far and level with the negative rows of the group. -/
def Sweep.add (s : Sweep α) (group : List (Row α β)) : Sweep α :=
  let positive := classWeight true group
  let negative := classWeight false group
  { negative := s.negative + negative
    positive := s.positive + positive
    area := s.area + positive * (s.negative + half * negative) }

/-- Do two rows have numerically equal predictions? -/
def level (r q : Row α β) : Bool := same q.pred r.pred

/-- Sweeps sorted rows group by group. -/
def Sweep.run (s : Sweep α) : List (Row α β) → Sweep α
  | [] => s
  | r :: rest =>
    (s.add (r :: rest.takeWhile (level r))).run (rest.dropWhile (level r))
termination_by rows => rows.length
decreasing_by
  have := (List.dropWhile_suffix (level r) : rest.dropWhile (level r) <:+ rest).length_le
  simp only [List.length_cons]
  omega

def area (rows : List (Row α β)) : α :=
  let s := Sweep.run ⟨ofNat 0, ofNat 0, ofNat 0⟩ (sorted rows)
  ratio s.area (s.positive * s.negative)

variable {γ : Type} [Scalar γ]

/-- The rows of a target, its predictions and weights.  Every row needs a prediction
and, where there are weights, a weight. -/
def rows (y : List γ) (pred : List β) (w : Option (List α)) : Except Misuse (List (Row α β)) := do
  if pred.length < y.length then throw (.outOfRange pred.length pred.length)
  let weights ← rowWeights y.length w
  return List.zipWith (fun (t, p) wi => ⟨p, isPositive t, wi⟩) (List.zip y pred) weights

/-- The score is undefined as soon as one prediction is not a number. -/
def score (y : List γ) (pred : List β) (w : Option (List α)) : Except Misuse α := do
  if pred.any isNaN then return undefined
  return area (← rows y pred w)

end Roc
end Metric
end SymbolicRegression
