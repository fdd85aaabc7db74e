/-!
Reading numbers: plain naturals, and doubles with sign, point and exponent.  A
numeral is read to the nearest double.
-/

namespace SymbolicRegression
namespace Decimal

/-- The greatest index and the greatest whole setting: one word of 64 bits. -/
def wordLimit : Nat := Nat.pow 2 64

def valueOf (ds : List Char) : Nat := ds.foldl (fun n c => 10 * n + (c.toNat - '0'.toNat)) 0

/-- A number written with digits only, at least one. -/
def natural? (cs : List Char) : Option Nat :=
  if cs ≠ [] ∧ cs.all Char.isDigit then some (valueOf cs) else none

/-- A natural below the word limit; a plus sign may stand in front. -/
def index? (cs : List Char) : Option Nat :=
  let body := match cs with
    | '+' :: rest => rest
    | rest => rest
  (natural? body).filter (· < wordLimit)

/-- The double nearest to `m * 10 ^ e`.  Far outside the range of doubles the
answer is settled by the magnitude alone, and no power is computed. -/
def nearest (m : Nat) (e : Int) : Float :=
  if m = 0 then 0.0
  else
    let leading : Int := e + (Nat.toDigits 10 m).length
    if leading > 400 then 1.0 / 0.0
    else if leading < -400 then 0.0
    else Float.ofScientific m (e < 0) e.natAbs

def integer? : List Char → Option Int
  | '-' :: ds => (natural? ds).map fun n => -(n : Int)
  | '+' :: ds => (natural? ds).map Int.ofNat
  | ds => (natural? ds).map Int.ofNat

/-- Digits, a point and an exponent, without a sign.  Digits may be missing on one
side of the point. -/
def unsigned? (cs : List Char) : Option Float := do
  let isMark : Char → Bool := fun c => c == 'e' || c == 'E'
  let mantissa := cs.takeWhile (!isMark ·)
  let exponent ← match cs.dropWhile (!isMark ·) with
    | [] => some 0
    | _ :: es => integer? es
  let whole := mantissa.takeWhile (· != '.')
  let fraction := (mantissa.dropWhile (· != '.')).drop 1
  let ds := whole ++ fraction
  if ds.all Char.isDigit && !ds.isEmpty then
    some (nearest (valueOf ds) (exponent - fraction.length))
  else none

/-- The names of infinity and of the value that is no number, in any case. -/
def named? (cs : List Char) : Option Float :=
  match cs.map Char.toLower with
  | ['i', 'n', 'f'] => some (1.0 / 0.0)
  | ['i', 'n', 'f', 'i', 'n', 'i', 't', 'y'] => some (1.0 / 0.0)
  | ['n', 'a', 'n'] => some (0.0 / 0.0)
  | _ => none

def magnitude? (cs : List Char) : Option Float := (named? cs).or (unsigned? cs)

/-- A double: a sign if there is one, then a name or a numeral. -/
def double? : List Char → Option Float
  | '-' :: cs => (magnitude? cs).map fun x => -x
  | '+' :: cs => magnitude? cs
  | cs => magnitude? cs

end Decimal
end SymbolicRegression
