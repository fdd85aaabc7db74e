import SymbolicRegression.Program.Operator

/-!
Programs: expression trees over features and constants.

A node is reached from the root by the list of child positions on the way, its
path; the root has the empty path.  Heights count edges, so a leaf has height zero.
-/

namespace SymbolicRegression

inductive Program where
  | feature (index : Nat)
  | constant (value : Float)
  | call (op : Operator) (operands : List Program)
deriving Inhabited

namespace Program

def isLeaf : Program → Bool
  | call _ _ => false
  | _ => true

mutual

/-- The number of edges on the longest way from the root to a leaf. -/
def height : Program → Nat
  | feature _ => 0
  | constant _ => 0
  | call _ ps => 1 + heights ps

def heights : List Program → Nat
  | [] => 0
  | p :: ps => max p.height (heights ps)

end

mutual

def size : Program → Nat
  | feature _ => 1
  | constant _ => 1
  | call _ ps => 1 + sizes ps

def sizes : List Program → Nat
  | [] => 0
  | p :: ps => p.size + sizes ps

end

mutual

/-- The paths of all nodes, a node before the nodes below it and operands from left
to right. -/
def positions : Program → List (List Nat)
  | feature _ => [[]]
  | constant _ => [[]]
  | call _ ps => [] :: positionsFrom 0 ps

/-- The paths into a list of operands whose first one is at position `i`. -/
def positionsFrom (i : Nat) : List Program → List (List Nat)
  | [] => []
  | p :: ps => p.positions.map (i :: ·) ++ positionsFrom (i + 1) ps

end

mutual

/-- The node at the end of a path, if the path stays in the tree. -/
def subtree? : Program → List Nat → Option Program
  | p, [] => some p
  | call _ ps, i :: path => subtreeIn? ps i path
  | _, _ :: _ => none

def subtreeIn? : List Program → Nat → List Nat → Option Program
  | [], _, _ => none
  | p :: _, 0, path => p.subtree? path
  | _ :: ps, i + 1, path => subtreeIn? ps i path

end

mutual

/-- The tree with the node at the end of a path replaced, if the path stays in the tree. -/
def replace? : Program → List Nat → Program → Option Program
  | _, [], new => some new
  | call op ps, i :: path, new => (replaceIn? ps i path new).map (call op)
  | _, _ :: _, _ => none

def replaceIn? : List Program → Nat → List Nat → Program → Option (List Program)
  | [], _, _, _ => none
  | p :: ps, 0, path, new => (p.replace? path new).map (· :: ps)
  | p :: ps, i + 1, path, new => (replaceIn? ps i path new).map (p :: ·)

end

mutual

def constants : Program → List Float
  | feature _ => []
  | constant c => [c]
  | call _ ps => constantsOf ps

def constantsOf : List Program → List Float
  | [] => []
  | p :: ps => p.constants ++ constantsOf ps

end

mutual

/-- Visits the constants from left to right and puts what the visit returns in their place. -/
def mapConstantsM {m : Type → Type} [Monad m] (f : Float → m Float) : Program → m Program
  | feature i => pure (feature i)
  | constant c => do return constant (← f c)
  | call op ps => do return call op (← mapConstantsOfM f ps)

def mapConstantsOfM {m : Type → Type} [Monad m] (f : Float → m Float) :
    List Program → m (List Program)
  | [] => pure []
  | p :: ps => do
    let q ← p.mapConstantsM f
    return q :: (← mapConstantsOfM f ps)

end

mutual

/-- The greatest feature index, if there is a feature. -/
def maxFeature? : Program → Option Nat
  | feature i => some i
  | constant _ => none
  | call _ ps => maxFeatureOf? ps

def maxFeatureOf? : List Program → Option Nat
  | [] => none
  | p :: ps => Option.merge max p.maxFeature? (maxFeatureOf? ps)

end

mutual

/-- Reads feature `i` as feature `mapping[i]`. -/
def remap (mapping : List Nat) : Program → Except Misuse Program
  | feature i => do return feature (← memberAt mapping i)
  | constant c => .ok (constant c)
  | call op ps => do return call op (← remapAll mapping ps)

def remapAll (mapping : List Nat) : List Program → Except Misuse (List Program)
  | [] => .ok []
  | p :: ps => do
    let q ← p.remap mapping
    return q :: (← remapAll mapping ps)

end

mutual

/-- Equality of trees in which constants are compared as numbers. -/
def same : Program → Program → Bool
  | feature i, feature j => i == j
  | constant c, constant d => c == d
  | call op ps, call op' qs => op == op' && sameAll ps qs
  | _, _ => false

def sameAll : List Program → List Program → Bool
  | [], [] => true
  | p :: ps, q :: qs => p.same q && sameAll ps qs
  | _, _ => false

end

end Program

end SymbolicRegression
