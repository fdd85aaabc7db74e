import SymbolicRegression.Error

/-!
Tables of training data: feature columns, a target for every row and, if wanted, a
weight for every row.
-/

namespace SymbolicRegression

structure Dataset where
  /-- One list per feature, each as long as the target. -/
  columns : List (List Float)
  target : List Float
  weights : Option (List Float)

namespace Dataset

def rowCount (d : Dataset) : Nat := d.target.length

def featureCount (d : Dataset) : Nat := d.columns.length

/-- A weight is finite and at least zero. -/
def isWeight (w : Float) : Bool := !(w < 0.0) && w.isFinite

/-- A table given by columns.  An empty list of weights means that there are none. -/
def ofColumns (columns : List (List Float)) (target : List Float)
    (weights : Option (List Float)) : Except Error Dataset := do
  if columns.isEmpty || target.isEmpty then throw .emptyDataset
  match columns.findIdx? fun c => c.length != target.length with
  | some bad => misconfigured (.columnLength bad (columns[bad]?.getD []).length target.length)
  | none => pure ()
  let weights := weights.filter fun w => !w.isEmpty
  match weights with
  | some w =>
    if w.length != target.length then misconfigured (.weightCount w.length target.length)
    else if w.all isWeight then pure ()
    else misconfigured .weightValue
  | none => pure ()
  return { columns, target, weights }

/-- The values at one position of every row that has it. -/
def columnOfRows (rows : List (List Float)) (j : Nat) : List Float := rows.filterMap (·[j]?)

/-- A table given by rows, which have to be of one length and as many as the target. -/
def ofRows (rows : List (List Float)) (target : List Float)
    (weights : Option (List Float)) : Except Error Dataset := do
  let n := (rows.head?.map List.length).getD 0
  if rows.any fun r => r.length != n then misconfigured .raggedRows
  if rows.length != target.length then misconfigured (.rowCount rows.length target.length)
  ofColumns ((List.range n).map (columnOfRows rows)) target weights

def column (d : Dataset) (feature : Nat) : Except Misuse (List Float) := memberAt d.columns feature

def row (d : Dataset) (r : Nat) : Except Misuse (List Float) := d.columns.mapM (memberAt · r)

/-- The same features and weights with another target. -/
def withTarget (d : Dataset) (target : List Float) : Except Error Dataset :=
  ofColumns d.columns target d.weights

/-- The given rows and features, in the given order. -/
def subset (d : Dataset) (rows features : List Nat) : Except Failure Dataset := do
  let columns ← (features.mapM fun f => rows.mapM fun r => do
    memberAt (← d.column f) r : Except Misuse _)
  let target ← (rows.mapM (memberAt d.target) : Except Misuse _)
  let weights ← match d.weights with
    | none => pure none
    | some w => do
      let chosen ← (rows.mapM (memberAt w) : Except Misuse _)
      pure (some chosen)
  ofColumns columns target weights

end Dataset

end SymbolicRegression
