/-!
Calls outside what their callers promise.  They are kept apart from the errors of
the library, which a correct caller may meet: a misuse says that an argument lay
outside the domain of the function it was given to.
-/

namespace SymbolicRegression

inductive Misuse where
  /-- A row, column, member or weight that is not there. -/
  | outOfRange (index size : Nat)
  /-- An operator was applied to too few operands. -/
  | missingOperand (index : Nat)
  /-- A draw from a range without members. -/
  | emptyRange (lo hi : Nat)
  /-- A draw from a real interval that is empty or wider than a double can say. -/
  | badInterval (lo hi : Float)
  /-- A probability outside the interval from zero to one. -/
  | badProbability (p : Float)
  /-- More distinct members were asked for than there are. -/
  | tooFew (available wanted : Nat)

/-- The member of a list at a position that the caller promises to exist. -/
def memberAt {α : Type} (l : List α) (i : Nat) : Except Misuse α :=
  match l[i]? with
  | some a => .ok a
  | none => .error (.outOfRange i l.length)

end SymbolicRegression
