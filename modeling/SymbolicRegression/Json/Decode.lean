import SymbolicRegression.Json.Reader

/-!
From JSON to values: single fields, and records whose fields are visited in the
order in which the text gives them.
-/

namespace SymbolicRegression
namespace Json

def malformed {α : Type} : Except JsonFault α := .error .malformed

/-- A whole number that is not negative.  A number with a point or an exponent is
none, whatever its value. -/
def toNat : Json → Except JsonFault Nat
  | number (.natural n) => .ok n
  | _ => malformed

/-- Any number.  Whole numbers are rounded to the nearest double. -/
def toFloat : Json → Except JsonFault Float
  | number (.natural n) => .ok (Float.ofNat n)
  | number (.negative n) => .ok (-(Float.ofNat n))
  | number (.real x) => .ok x
  | _ => malformed

def toBool : Json → Except JsonFault Bool
  | bool b => .ok b
  | _ => malformed

def toText : Json → Except JsonFault String
  | text s => .ok s
  | _ => malformed

def toOption {α : Type} (f : Json → Except JsonFault α) : Json → Except JsonFault (Option α)
  | null => .ok none
  | j => do return some (← f j)

def toList {α : Type} (f : Json → Except JsonFault α) : Json → Except JsonFault (List α)
  | array items => items.mapM f
  | _ => malformed

/-- Visits the members of an object in their order.  Names that no field has are
skipped; a field that comes twice is a fault. -/
def visitMembers {σ : Type} (names : List String) (put : σ → Nat → Json → Except JsonFault σ) :
    (seen : List Nat) → σ → List (Option String × Json) → Except JsonFault σ
  | _, acc, [] => .ok acc
  | _, _, (none, _) :: _ => malformed
  | seen, acc, (some key, j) :: ms =>
    match names.idxOf? key with
    | none => if j.isIntact then visitMembers names put seen acc ms else malformed
    | some i =>
      if seen.contains i then malformed
      else do visitMembers names put (i :: seen) (← put acc i j) ms

/-- Visits as many items as there are fields, numbered from `i`; there have to be as many. -/
def visitItems {σ : Type} (put : σ → Nat → Json → Except JsonFault σ) :
    (count i : Nat) → σ → List Json → Except JsonFault σ
  | 0, _, acc, [] => .ok acc
  | n + 1, i, acc, j :: js => do visitItems put n (i + 1) (← put acc i j) js
  | _, _, _, _ => malformed

/-- Visits the fields of a record, given as an object or as an array of all fields in
their order. -/
def visitRecord {σ : Type} (names : List String) (put : σ → Nat → Json → Except JsonFault σ)
    (start : σ) : Json → Except JsonFault σ
  | object members => visitMembers names put [] start members
  | array items => visitItems put names.length 0 start items
  | _ => malformed

/-- The values of the fields of a record, `none` for those it does not have. -/
def slots (names : List String) (j : Json) : Except JsonFault (List (Option Json)) :=
  visitRecord names (fun acc i v => .ok (acc.set i (some v))) (List.replicate names.length none) j

def field {α : Type} (f : Json → Except JsonFault α) (slots : List (Option Json)) (i : Nat) :
    Except JsonFault α :=
  match slots[i]? with
  | some (some j) => f j
  | _ => malformed

def field? {α : Type} (f : Json → Except JsonFault α) (slots : List (Option Json)) (i : Nat) :
    Except JsonFault (Option α) :=
  match slots[i]? with
  | some (some j) => toOption f j
  | _ => .ok none

end Json
end SymbolicRegression
