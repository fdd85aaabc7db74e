import SymbolicRegression.Numeric.Scalar

/-!
Golden-section search.  A bracket around the minimum holds two probes in the golden
ratio; every step drops the part beyond the worse probe, and the better one stays a
probe of the smaller bracket, so a step costs one evaluation.
-/

namespace SymbolicRegression

/-- A bracket from `a` to `b` with the probes `c` and `d` and their scores. -/
structure Bracket (α β : Type) where
  a : α
  b : α
  c : α
  d : α
  atC : Option β
  atD : Option β

namespace GoldenSection

variable {α β : Type} [Scalar α] [Comparable β]

/-- The share of a bracket that a step keeps: one over the golden ratio, which is given
to fifteen places. -/
def kept : α := Scalar.ofNat 1 / Scalar.ofDecimal 1618033988749895 15

/-- A value that is not finite has no score, which is worse than any score. -/
def score (v : β) : Option β := if Comparable.isFinite v then some v else none

def isBetter : Option β → Option β → Bool
  | some v, some w => Comparable.less v w
  | some _, none => true
  | none, _ => false

def lowProbe (a b : α) : α := b - (b - a) * kept

def highProbe (a b : α) : α := a + (b - a) * kept

variable {m : Type → Type} [Monad m]

/-- The first bracket; the bounds may come in any order. -/
def start (f : α → m β) (lower upper : α) : m (Bracket α β) := do
  let (a, b) := if Comparable.atMost lower upper then (lower, upper) else (upper, lower)
  let c := lowProbe a b
  let d := highProbe a b
  let atC ← f c
  let atD ← f d
  return { a, b, c, d, atC := score atC, atD := score atD }

/-- Drops the part beyond the worse probe. -/
def step (f : α → m β) (k : Bracket α β) : m (Bracket α β) := do
  if isBetter k.atC k.atD then
    let c := lowProbe k.a k.d
    let atC ← f c
    return { a := k.a, b := k.d, c, d := k.c, atC := score atC, atD := k.atC }
  else
    let d := highProbe k.c k.b
    let atD ← f d
    return { a := k.c, b := k.b, c := k.d, d, atC := k.atD, atD := score atD }

def isNarrow (tolerance : α) (k : Bracket α β) : Bool :=
  Comparable.less (Scalar.abs (k.b - k.a)) tolerance

/-- At most so many steps, until the bracket is narrow. -/
def shrink (f : α → m β) (tolerance : α) : Nat → Bracket α β → m (Bracket α β)
  | 0, k => return k
  | n + 1, k => do
    if isNarrow tolerance k then return k else shrink f tolerance n (← step f k)

/-- The greatest number of steps, far more than a narrow bracket needs. -/
def stepLimit : Nat := 200

/-- Searches the minimum of a function with one valley between two bounds, and gives the
middle of the last bracket. -/
def minimum (f : α → m β) (lower upper tolerance : α) : m α := do
  let k ← shrink f tolerance stepLimit (← start f lower upper)
  return (k.a + k.b) / Scalar.ofNat 2

/-- The multiplier of a step of boosting: between zero and ten, to ten places. -/
def multiplier (f : α → m β) : m α :=
  minimum f (Scalar.ofNat 0) (Scalar.ofNat 10) (Scalar.ofDecimal 1 10)

end GoldenSection

end SymbolicRegression
