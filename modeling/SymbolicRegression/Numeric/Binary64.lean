import SymbolicRegression.Numeric.Scalar

/-!
Double-precision numbers as scalars, and their total order.
-/

namespace SymbolicRegression
namespace Binary64

/-- A position on the line of all doubles: negative numbers in reverse order of
their bits, then minus zero, zero, the positive numbers, infinity, and the values
that are no number. -/
def position (x : Float) : Int :=
  let bits := x.toBits.toNat
  if bits < Nat.pow 2 63 then bits else (Nat.pow 2 63 : Int) - 1 - bits

/-- The total order: minus zero is below zero, and what is no number is above infinity. -/
def rank (x y : Float) : Ordering := compare (position x) (position y)

def infinity : Float := 1.0 / 0.0

def nan : Float := 0.0 / 0.0

instance : Scalar Float where
  less x y := x < y
  same x y := x == y
  isFinite := Float.isFinite
  isNaN := Float.isNaN
  rank := rank
  ofNat := Float.ofNat
  ofDecimal m places := Float.ofScientific m true places
  undefined := nan
  abs := Float.abs
  sqrt := Float.sqrt
  exp := Float.exp
  log := Float.log

/-- The whole number nearest below a value that is at least zero, and zero for all
other values; values past the greatest word give the greatest word. -/
def toWord (x : Float) : Nat := x.toUInt64.toNat

/-- The whole number nearest above a value, with the sign of the value.  From `2 ^ 53` on all
values are whole. -/
def ceiling (x : Float) : Float :=
  if x.abs < 9007199254740992.0 then
    if x < 0.0 then -Float.ofNat (toWord (-x))
    else
      let whole := Float.ofNat (toWord x)
      if whole < x then whole + 1.0 else x
  else x

end Binary64
end SymbolicRegression
