import SymbolicRegression.Error

/-!
JSON values.  Objects keep the order and the repetitions of their members.

A tree may also stand for text that is JSON only in part: reading stops at the
first character that cannot go on, and the tree built so far ends in `broken`.  A
decoder that works from left to right therefore meets the faults of a text in their
order.  What is well formed but has no value, a number too large for a double, a lone
half of a surrogate pair or an array nested too deep, is `unreadable`: it can be skipped
but not read.
-/

namespace SymbolicRegression

/-- Numbers keep the distinction between whole numbers that fit a word, negative
whole numbers that fit a signed word, and all others. -/
inductive Json.Number where
  | natural (n : Nat)
  | negative (magnitude : Nat)
  | real (x : Float)

inductive Json where
  | null
  | bool (b : Bool)
  | number (n : Json.Number)
  | text (s : String)
  | array (items : List Json)
  /-- A key without a value of its own is `none`. -/
  | object (members : List (Option String × Json))
  | unreadable
  | broken

namespace Json

/-- A double as a number, or `null` if it is infinite or no number. -/
def ofFloat (x : Float) : Json := if x.isFinite then number (.real x) else null

def ofNat (n : Nat) : Json := number (.natural n)

def ofOption {α : Type} (f : α → Json) : Option α → Json
  | none => null
  | some a => f a

def record (members : List (String × Json)) : Json := object (members.map fun m => (some m.1, m.2))

mutual

/-- The text was JSON to its end, whatever its parts are worth. -/
def isIntact : Json → Bool
  | broken => false
  | array items => allIntact items
  | object members => membersIntact members
  | _ => true

def allIntact : List Json → Bool
  | [] => true
  | j :: js => j.isIntact && allIntact js

def membersIntact : List (Option String × Json) → Bool
  | [] => true
  | (_, j) :: ms => j.isIntact && membersIntact ms

end

mutual

/-- The text was JSON to its end and every part of it has a value. -/
def isReadable : Json → Bool
  | broken => false
  | unreadable => false
  | array items => allReadable items
  | object members => membersReadable members
  | _ => true

def allReadable : List Json → Bool
  | [] => true
  | j :: js => j.isReadable && allReadable js

def membersReadable : List (Option String × Json) → Bool
  | [] => true
  | (key, j) :: ms => key.isSome && j.isReadable && membersReadable ms

end

end Json

end SymbolicRegression
