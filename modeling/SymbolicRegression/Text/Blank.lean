/-!
White space, by the Unicode property of that name: 25 characters in ten ranges.
-/

namespace SymbolicRegression
namespace Text

/-- Closed ranges of code points, ascending and apart. -/
def blankRanges : List (Nat × Nat) :=
  [(0x09, 0x0D), (0x20, 0x20), (0x85, 0x85), (0xA0, 0xA0), (0x1680, 0x1680), (0x2000, 0x200A),
   (0x2028, 0x2029), (0x202F, 0x202F), (0x205F, 0x205F), (0x3000, 0x3000)]

/-- Does a code point lie in one of the ranges? -/
def inRanges (rs : List (Nat × Nat)) (n : Nat) : Bool := rs.any fun r => r.1 ≤ n && n ≤ r.2

def isBlank (c : Char) : Bool := inRanges blankRanges c.toNat

def dropBlanks (cs : List Char) : List Char := cs.dropWhile isBlank

def strip (s : String) : String :=
  String.ofList (dropBlanks (dropBlanks s.toList).reverse).reverse

/-- A name as it is looked up: without blanks around it and in small letters.
Letters outside ASCII are left alone, since none of them has a small form made of
the letters of a name that is looked up here. -/
def fold (s : String) : String := (strip s).map Char.toLower

def byteSize (cs : List Char) : Nat := cs.foldl (fun n c => n + c.utf8Size) 0

end Text
end SymbolicRegression
