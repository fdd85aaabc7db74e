/-!
The arithmetic that losses, scores and line searches are written over.  A kernel
asks for a `Scalar`, not for a particular number type: on `Float` it runs, and on
an exact field the same definition can be compared with the textbook formula.
-/

namespace SymbolicRegression

/-- Values that can be ranked: predictions and objective values need no more than
this.  `less` and `same` are the numerical comparisons, false as soon as a
side is not a number; `rank` is a total order that refines them. -/
class Comparable (α : Type) where
  less : α → α → Bool
  same : α → α → Bool
  isFinite : α → Bool
  isNaN : α → Bool
  rank : α → α → Ordering

/-- A number type the kernels can compute with. -/
class Scalar (α : Type) extends Comparable α, Add α, Sub α, Mul α, Div α, Neg α where
  ofNat : Nat → α
  /-- The number nearest to `m / 10 ^ places`. -/
  ofDecimal : (m places : Nat) → α
  /-- The value of a score that has none. -/
  undefined : α
  abs : α → α
  sqrt : α → α
  exp : α → α
  log : α → α

namespace Comparable

variable {α : Type} [Comparable α]

/-- At most, numerically. -/
def atMost (a b : α) : Bool := less a b || same a b

/-- The smaller value, or the other one when one of them is not a number; of two
equal values the first. -/
def lesser (a b : α) : α := if isNaN a || less b a then b else a

/-- The greater value, or the other one when one of them is not a number; of two
equal values the first. -/
def greater (a b : α) : α := if isNaN a || less a b then b else a

/-- `x` moved into the range from `lo` to `hi`; a value that is not a number stays. -/
def clamp (lo hi x : α) : α := if less x lo then lo else if less hi x then hi else x

end Comparable

namespace Scalar

variable {α : Type} [Scalar α]

/-- The sum from left to right.  It starts at minus zero, the neutral element of
rounded addition: the sum of a list of minus zeros is minus zero. -/
def sum (l : List α) : α := l.foldl (· + ·) (-ofNat 0)

def square (x : α) : α := x * x

/-- A quotient that is zero when the denominator is. -/
def ratio (num den : α) : α := if Comparable.same den (ofNat 0) then ofNat 0 else num / den

end Scalar

end SymbolicRegression
