import SymbolicRegression.Decimal.Shortest

/-!
How a selected decimal is written down.  One record holds the decisions a format
makes; the three formats of this library are values of it, each defined where that
format is written.
-/

namespace SymbolicRegression
namespace Decimal

/-- The decisions of a number format. -/
structure Layout where
  /-- Is a number whose first digit stands for `10 ^ e` written without an exponent? -/
  positional : Int → Bool
  /-- Whole numbers written without an exponent end in `.0`. -/
  pointZero : Bool
  /-- An exponent that is not negative carries a plus sign. -/
  plusSign : Bool
  tie : Tie

/-- The decimal digits of a number, at least one. -/
def digitsOf (n : Nat) : List Char := Nat.toDigits 10 n

def signedDigits (plus : Bool) (e : Int) : List Char :=
  if e < 0 then '-' :: digitsOf e.natAbs
  else if plus then '+' :: digitsOf e.natAbs else digitsOf e.natAbs

def Layout.place (l : Layout) (d : Scaled) : List Char :=
  let ds := digitsOf d.digits
  let leading : Int := d.exponent + ds.length - 1
  if l.positional leading then
    if 0 ≤ d.exponent then
      ds ++ List.replicate d.exponent.toNat '0' ++ (if l.pointZero then ['.', '0'] else [])
    else if 0 ≤ leading then
      ds.take (leading.toNat + 1) ++ '.' :: ds.drop (leading.toNat + 1)
    else
      '0' :: '.' :: List.replicate ((-leading).toNat - 1) '0' ++ ds
  else
    let fraction := if ds.length = 1 then [] else '.' :: ds.drop 1
    ds.take 1 ++ fraction ++ 'e' :: signedDigits l.plusSign leading

/-- Writes a double: the sign first, then the magnitude; `NaN` stands for every
value that is no number, whatever its sign bit. -/
def Layout.write (l : Layout) (x : Float) : List Char :=
  if x.isNaN then ['N', 'a', 'N']
  else
    let bits := x.toBits
    let sign := if bits >>> 63 = 1 then ['-'] else []
    let magnitude := bits &&& 0x7FFFFFFFFFFFFFFF
    if magnitude = 0x7FF0000000000000 then sign ++ ['i', 'n', 'f']
    else if magnitude = 0 then sign ++ '0' :: (if l.pointZero then ['.', '0'] else [])
    else sign ++ l.place ((Span.ofBits magnitude).shortest l.tie)

/-- Constants in programs and steps in ensembles: the shortest digits, positional
from `1e-4` up to below `1e16`, always with a point or an exponent, so that a
constant never reads as a whole number. -/
def exactLayout : Layout where
  positional e := decide (-4 ≤ e) && decide (e < 16)
  pointZero := true
  plusSign := false
  tie := .up

/-- Numbers inside messages: the shortest digits, never an exponent. -/
def plainLayout : Layout where
  positional _ := true
  pointZero := false
  plusSign := false
  tie := .up

/-- A constant as it stands in a program. -/
def exact (x : Float) : List Char := exactLayout.write x

def exactText (x : Float) : String := String.ofList (exact x)

def plainText (x : Float) : String := String.ofList (plainLayout.write x)

end Decimal
end SymbolicRegression
