import SymbolicRegression.Decimal.Layout

/-!
Numbers with a set number of places after the point.  The exact binary value is
rounded, and a tie goes to the even neighbour.
-/

namespace SymbolicRegression
namespace Decimal

/-- `num / den` rounded to the nearest whole number, ties to even. -/
def roundRatio (num den : Nat) : Nat :=
  let q := num / den
  match compare (2 * (num % den)) den with
  | .lt => q
  | .gt => q + 1
  | .eq => if q % 2 = 0 then q else q + 1

/-- Sets a point before the last `places` digits, with zeros in front as needed. -/
def setPoint (places n : Nat) : List Char :=
  let ds := digitsOf n
  let padded := List.replicate (places + 1 - ds.length) '0' ++ ds
  let whole := padded.length - places
  padded.take whole ++ (if places = 0 then [] else '.' :: padded.drop whole)

/-- A double with `places` digits after the point. -/
def fixed (places : Nat) (x : Float) : String :=
  if x.isNaN then "NaN"
  else
    let bits := x.toBits
    let sign := if bits >>> 63 = 1 then ['-'] else []
    let magnitude := bits &&& 0x7FFFFFFFFFFFFFFF
    if magnitude = 0x7FF0000000000000 then String.ofList (sign ++ ['i', 'n', 'f'])
    else
      let s := Span.ofBits magnitude
      let n := roundRatio (s.value * Nat.pow 10 places) s.denominator
      String.ofList (sign ++ setPoint places n)

end Decimal
end SymbolicRegression
