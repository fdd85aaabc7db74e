import SymbolicRegression.Text.Hidden

/-!
Quoted text inside messages: double quotes around it, a backslash before what
would not show.
-/

namespace SymbolicRegression
namespace Text

def quoteMark : Char := Char.ofNat 34

def backslash : Char := Char.ofNat 92

def quoteChar (c : Char) : List Char :=
  if c = quoteMark ∨ c = backslash then [backslash, c]
  else match c.toNat with
    | 0 => [backslash, '0']
    | 9 => [backslash, 't']
    | 10 => [backslash, 'n']
    | 13 => [backslash, 'r']
    | n =>
      if isHidden c then [backslash, 'u', Char.ofNat 123] ++ Nat.toDigits 16 n ++ [Char.ofNat 125]
      else [c]

def quote (s : String) : String :=
  String.ofList (quoteMark :: s.toList.flatMap quoteChar ++ [quoteMark])

end Text
end SymbolicRegression
