import SymbolicRegression.Json.Decode

/-!
Settings as a table.  A setting has a name, further names it is known by, and a slot
in the record that holds its value.  Reading and writing are the same for all tables.
-/

namespace SymbolicRegression

structure Place (σ α : Type) where
  get : σ → α
  set : α → σ → σ

/-- The place inside a place. -/
def Place.then {ρ σ α : Type} (outer : Place ρ σ) (inner : Place σ α) : Place ρ α where
  get r := inner.get (outer.get r)
  set a r := outer.set (inner.set a (outer.get r)) r

/-- The place of a setting, by the kind of its values. -/
inductive Slot (σ : Type) where
  | text (p : Place σ String)
  | optionalText (p : Place σ (Option String))
  | real (p : Place σ Float)
  | natural (p : Place σ Nat)
  | flag (p : Place σ Bool)

namespace Slot

variable {ρ σ : Type}

/-- The same slot seen from a record that holds the record of the slot. -/
def within (outer : Place ρ σ) : Slot σ → Slot ρ
  | text p => text (outer.then p)
  | optionalText p => optionalText (outer.then p)
  | real p => real (outer.then p)
  | natural p => natural (outer.then p)
  | flag p => flag (outer.then p)

def toJson (s : σ) : Slot σ → Json
  | text p => .text (p.get s)
  | optionalText p => .ofOption .text (p.get s)
  | real p => .ofFloat (p.get s)
  | natural p => .ofNat (p.get s)
  | flag p => .bool (p.get s)

/-- Puts a JSON value into the slot, if it is of the slot's kind. -/
def put (j : Json) (s : σ) : Slot σ → Except JsonFault σ
  | text p => do return p.set (← j.toText) s
  | optionalText p => do return p.set (← j.toOption Json.toText) s
  | real p => do return p.set (← j.toFloat) s
  | natural p => do return p.set (← j.toNat) s
  | flag p => do return p.set (← j.toBool) s

/-- Two records agree in the slot; numbers are compared as numbers. -/
def agrees (s t : σ) : Slot σ → Bool
  | text p => p.get s == p.get t
  | optionalText p => p.get s == p.get t
  | real p => p.get s == p.get t
  | natural p => p.get s == p.get t
  | flag p => p.get s == p.get t

end Slot

structure Setting (σ : Type) where
  name : String
  aliases : List String
  slot : Slot σ

namespace Setting

variable {ρ σ : Type}

def within (outer : Place ρ σ) (s : Setting σ) : Setting ρ :=
  { name := s.name, aliases := s.aliases, slot := s.slot.within outer }

def hasName (key : String) (s : Setting σ) : Bool := s.name == key || s.aliases.contains key

/-- The members of the object that holds all settings of a record under their names. -/
def members (table : List (Setting σ)) (s : σ) : List (String × Json) :=
  table.map fun f => (f.name, f.slot.toJson s)

/-- Puts the members of an object into a record and collects the keys that no setting
has.  A setting may be given once, under any one of its names. -/
def putMembers (table : List (Setting σ)) :
    (seen : List Nat) → List (Option String × Json) → σ → Except JsonFault (σ × List String)
  | _, [], s => .ok (s, [])
  | _, (none, _) :: _, _ => Json.malformed
  | seen, (some key, j) :: ms, s =>
    match table.findIdx? (hasName key) with
    | none => do
      let (s, unknown) ← putMembers table seen ms s
      return (s, key :: unknown)
    | some i =>
      if seen.contains i then Json.malformed
      else do
        match table[i]? with
        | some f => putMembers table (i :: seen) ms (← f.slot.put j s)
        | none => Json.malformed

/-- Two records agree in all settings of a table. -/
def agree (table : List (Setting σ)) (s t : σ) : Bool := table.all fun f => f.slot.agrees s t

end Setting

end SymbolicRegression
