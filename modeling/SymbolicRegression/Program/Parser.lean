import SymbolicRegression.Decimal.Numeral
import SymbolicRegression.Program.Basic

/-!
Reading the text form of programs.

A node is a token, and if the token names an operator, its operands in parentheses
with commas between them.  Blanks may stand before every token.  A token ends at a
parenthesis, a comma or a blank, and is tried as a feature, a number and an operator
name in this order.
-/

namespace SymbolicRegression
namespace Program
namespace Parser

open Text

/-- Where and why reading stopped; the place is given by what was left of the text. -/
structure Stop where
  rest : List Char
  reason : (offset : Nat) → (input : String) → ParseFault

def isDelimiter (c : Char) : Bool := c == '(' || c == ')' || c == ',' || isBlank c

/-- What a token is, tried in order. -/
inductive Token where
  | feature (index : Nat)
  | number (value : Float)
  | operator (op : Operator)
  | unknown

def feature? : List Char → Option Nat
  | 'x' :: digits => Decimal.index? digits
  | _ => none

def Token.ofChars (cs : List Char) : Token :=
  match feature? cs with
  | some i => .feature i
  | none =>
    match Decimal.double? cs with
    | some x => .number x
    | none =>
      match Operator.ofName? (String.ofList cs) with
      | some op => .operator op
      | none => .unknown

/-- The token at the start of a text. -/
def token (s : List Char) : List Char := s.takeWhile (!isDelimiter ·)

def afterToken (s : List Char) : List Char := s.dropWhile (!isDelimiter ·)

theorem length_dropBlanks_le (s : List Char) : (dropBlanks s).length ≤ s.length :=
  (List.dropWhile_suffix _).length_le

/-- A token that is not empty is used up. -/
theorem length_afterToken_lt {s : List Char} (h : token s ≠ []) :
    (afterToken s).length < s.length := by
  have split : token s ++ afterToken s = s := List.takeWhile_append_dropWhile
  have pos : 0 < (token s).length := List.length_pos_iff.mpr h
  have sum := congrArg List.length split
  simp only [List.length_append] at sum
  omega

theorem length_lt_of_dropBlanks {s rest : List Char} {c : Char} (h : dropBlanks s = c :: rest) :
    rest.length < s.length := by
  have := length_dropBlanks_le s
  rw [h, List.length_cons] at this
  omega

/-- Skips blanks and the given character. -/
def expect (c : Char) (s : List Char) : Except Stop { r : List Char // r.length < s.length } :=
  match h : dropBlanks s with
  | d :: rest =>
    if d = c then
      .ok ⟨rest, length_lt_of_dropBlanks h⟩
    else .error ⟨d :: rest, ParseFault.expectedChar c⟩
  | [] => .error ⟨[], ParseFault.expectedChar c⟩

mutual

/-- Reads a node from the start of a text and returns what is left, which is shorter. -/
def node (s : List Char) : Except Stop (Program × { r : List Char // r.length < s.length }) :=
  let start := dropBlanks s
  have hs : start.length ≤ s.length := length_dropBlanks_le s
  if ht : token start = [] then .error ⟨start, ParseFault.expectedNode⟩
  else
    have hr : (afterToken start).length < s.length :=
      Nat.lt_of_lt_of_le (length_afterToken_lt ht) hs
    match Token.ofChars (token start) with
    | .feature i => .ok (.feature i, ⟨afterToken start, hr⟩)
    | .number x => .ok (.constant x, ⟨afterToken start, hr⟩)
    | .unknown => .error ⟨start, ParseFault.unknownToken (String.ofList (token start))⟩
    | .operator op => do
      let ⟨opened, ho⟩ ← expect '(' (afterToken start)
      let (ps, ⟨rest, hl⟩) ← operands op.arity true opened
      let ⟨closed, hc⟩ ← expect ')' rest
      return (.call op ps, ⟨closed, by omega⟩)
termination_by 2 * s.length

/-- Reads `n` nodes with commas before all but the first one of an operator. -/
def operands (n : Nat) (first : Bool) (s : List Char) :
    Except Stop (List Program × { r : List Char // r.length ≤ s.length }) :=
  match n with
  | 0 => .ok ([], ⟨s, Nat.le_refl _⟩)
  | n + 1 => do
    let ⟨start, hs⟩ ← if first then pure ⟨s, Nat.le_refl _⟩ else do
      let ⟨r, hr⟩ ← expect ',' s
      pure (⟨r, Nat.le_of_lt hr⟩ : { r : List Char // r.length ≤ s.length })
    let (p, ⟨rest, hr⟩) ← node start
    let (ps, ⟨left, hl⟩) ← operands n false rest
    return (p :: ps, ⟨left, by omega⟩)
termination_by 2 * s.length + 1

end

end Parser

open SymbolicRegression.Program.Parser in
/-- Reads a program that fills the whole text, up to blanks around it.  Offsets in
errors count bytes. -/
def ofText (input : String) : Except Error Program :=
  let cs := input.toList
  let fault (stop : Stop) : Error :=
    .parse (stop.reason (Text.byteSize cs - Text.byteSize stop.rest) input)
  match node cs with
  | .error stop => .error (fault stop)
  | .ok (p, ⟨rest, _⟩) =>
    match Text.dropBlanks rest with
    | [] => .ok p
    | left => .error (fault ⟨left, ParseFault.trailingInput⟩)

end Program

end SymbolicRegression
