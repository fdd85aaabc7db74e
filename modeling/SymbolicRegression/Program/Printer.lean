import SymbolicRegression.Program.Basic

/-!
The text form of programs, as in `add(x0, mul(1.5, x1))`: features by index,
constants by the shortest digits that identify them.
-/

namespace SymbolicRegression
namespace Program

mutual

def print : Program → List Char
  | feature i => 'x' :: Decimal.digitsOf i
  | constant c => Decimal.exact c
  | call op ps => op.name.toList ++ '(' :: (printAll ps ++ [')'])

def printAll : List Program → List Char
  | [] => []
  | p :: ps => p.print ++ printRest ps

def printRest : List Program → List Char
  | [] => []
  | p :: ps => ',' :: ' ' :: (p.print ++ printRest ps)

end

def text (p : Program) : String := String.ofList p.print

end Program

end SymbolicRegression
