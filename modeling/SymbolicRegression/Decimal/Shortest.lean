/-!
The shortest decimal that identifies a double.

A positive double is a dyadic number `m * 2 ^ q`.  The reals that round to it form
an interval around it, and of the decimals in that interval this module takes one
with the fewest digits, the nearest to the double among those.  All of it is
arithmetic on natural numbers: value and interval are put over a common
denominator first.
-/

namespace SymbolicRegression
namespace Decimal

/-- Which of two equally near decimals of the same length is taken. -/
inductive Tie where
  | up
  | even
deriving DecidableEq, Repr

/-- The number `digits * 10 ^ exponent`. -/
structure Scaled where
  digits : Nat
  exponent : Int
deriving DecidableEq, Repr

/-- A positive value with the interval of reals that round to it, all over one
denominator. -/
structure Span where
  value : Nat
  low : Nat
  high : Nat
  denominator : Nat
  /-- The two ends belong to the interval. -/
  closed : Bool
deriving Repr

/-- The span of a positive finite double, read off its bits.  The gap below a power
of two is half the gap above it, except at the smallest one.  Ties between two
doubles go to the even significand, so the ends belong to the interval when this
one is even. -/
def Span.ofBits (bits : UInt64) : Span :=
  let biased := ((bits >>> 52) &&& 0x7FF).toNat
  let fraction := (bits &&& 0xFFFFFFFFFFFFF).toNat
  let significand := if biased = 0 then fraction else Nat.pow 2 52 + fraction
  -- quarters of the unit in the last place, so that both ends are whole
  let up := max biased 1 - 1077
  let down := 1077 - max biased 1
  let below := if fraction = 0 ∧ 1 < biased then 1 else 2
  { value := 4 * significand * Nat.pow 2 up
    low := (4 * significand - below) * Nat.pow 2 up
    high := (4 * significand + 2) * Nat.pow 2 up
    denominator := Nat.pow 2 down
    closed := significand % 2 = 0 }

/-- `k` units of the grid lie in the interval; a grid unit is `denominator` of the
rescaled span. -/
def Span.contains (s : Span) (k : Nat) : Bool :=
  let x := k * s.denominator
  if s.closed then s.low ≤ x && x ≤ s.high else s.low < x && x < s.high

/-- The same span with `10 ^ exponent` as the unit. -/
def Span.inUnits (s : Span) (exponent : Int) : Span :=
  let up := Nat.pow 10 (-exponent).toNat
  { s with
    value := s.value * up
    low := s.low * up
    high := s.high * up
    denominator := s.denominator * Nat.pow 10 exponent.toNat }

/-- The point of the unit grid in the interval that is nearest to the value.  If
any point of the grid lies in the interval, one of the value's two neighbours does. -/
def Span.nearest? (s : Span) (tie : Tie) : Option Nat :=
  let k := s.value / s.denominator
  match s.contains k, s.contains (k + 1) with
  | false, false => none
  | true, false => some k
  | false, true => some (k + 1)
  | true, true =>
    match compare (2 * s.value) ((2 * k + 1) * s.denominator) with
    | .lt => some k
    | .gt => some (k + 1)
    | .eq => if tie = .even ∧ k % 2 = 0 then some k else some (k + 1)

def digitCount (n : Nat) : Nat := (Nat.toDigits 10 n).length

/-- The least `e` for which the value is below `10 ^ e`. -/
def Span.magnitude (s : Span) : Int :=
  if s.denominator ≤ s.value then digitCount (s.value / s.denominator)
  else 1 - (digitCount ((s.denominator - 1) / s.value) : Int)

/-- Moves the zeros at the end of the digits into the exponent. -/
def Scaled.trim (fuel : Nat) (d : Scaled) : Scaled :=
  match fuel with
  | 0 => d
  | fuel + 1 =>
    if d.digits % 10 = 0 ∧ d.digits ≠ 0 then
      Scaled.trim fuel { digits := d.digits / 10, exponent := d.exponent + 1 }
    else d

/-- The shortest decimal in the interval of a span: grids of one, two, up to
seventeen digits are tried in turn.  Seventeen digits tell all doubles apart, and
should no grid have a point in the interval the exact value is given. -/
def Span.shortest (s : Span) (tie : Tie) : Scaled :=
  let e := s.magnitude
  let hit := (List.range 17).findSome? fun n =>
    let unit := e - (n + 1 : Nat)
    ((s.inUnits unit).nearest? tie).map fun k => Scaled.trim 17 { digits := k, exponent := unit }
  hit.getD
    { digits := s.value * Nat.pow 5 s.denominator.log2, exponent := -(s.denominator.log2 : Int) }

end Decimal
end SymbolicRegression
