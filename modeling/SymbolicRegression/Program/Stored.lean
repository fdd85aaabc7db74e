import SymbolicRegression.Json.Decode
import SymbolicRegression.Json.Writer
import SymbolicRegression.Program.Basic

/-!
The JSON form of programs.

A node is an object with a `type`: a `var` has the index of a feature as its
`value`, a `const` a number, a `func` the name of an operator and a list of
`operands`.  JSON has no infinities, so only programs with finite constants have a
JSON form.

Reading goes through an outline first: the whole value has to have the shape of a
tree before any operator name is looked up or any operand counted.
-/

namespace SymbolicRegression
namespace Program

open Json

mutual

def toJson : Program → Except JsonFault Json
  | feature i => .ok (record [("type", .text "var"), ("value", .ofNat i)])
  | constant c =>
    if c.isFinite then .ok (record [("type", .text "const"), ("value", .number (.real c))])
    else .error (.nonFinite c)
  | call op ps => do
    return record [("type", .text "func"), ("value", .text op.name),
      ("operands", .array (← allToJson ps))]

def allToJson : List Program → Except JsonFault (List Json)
  | [] => .ok []
  | p :: ps => do
    let j ← p.toJson
    return j :: (← allToJson ps)

end

def json (p : Program) : Except Error String :=
  (p.toJson.map compact).mapError Error.json

/-- A tree whose operators are still names. -/
inductive Outline where
  | feature (index : Nat)
  | constant (value : Float)
  | call (name : String) (operands : List Outline)

namespace Outline

inductive Kind where
  | feature
  | constant
  | call

/-- The kind of a node.  Inside another value a kind may also be given by its number. -/
def kind? (nested : Bool) : Json → Option Kind
  | .text "var" => some .feature
  | .text "const" => some .constant
  | .text "func" => some .call
  | .number (.natural 0) => if nested then some .feature else none
  | .number (.natural 1) => if nested then some .constant else none
  | .number (.natural 2) => if nested then some .call else none
  | _ => none

/-- What a node says about itself, still with repetitions: its types, its values and
its lists of operands. -/
structure Parts where
  types : List Json
  values : List Json
  operands : List (Option (List Outline))

/-- A node from its parts, each of which has to be there once if it is needed, and not
twice in any case. -/
def assemble (nested : Bool) (parts : Parts) : Option Outline := do
  let [type] := parts.types | none
  match ← kind? nested type with
  | .feature => do
    let [value] := parts.values | none
    let i ← (Json.toNat value).toOption
    return feature i
  | .constant => do
    let [value] := parts.values | none
    let x ← (Json.toFloat value).toOption
    return constant x
  | .call => do
    let [value] := parts.values | none
    let name ← (Json.toText value).toOption
    let [some operands] := parts.operands | none
    return call name operands

/-- A node written as an array: its type, then the parts its kind asks for. -/
def assembleRow (nested : Bool) : List (Json × Option (List Outline)) → Option Outline
  | [(type, _), (value, _)] =>
    assemble nested { types := [type], values := [value], operands := [] }
  | [(type, _), (value, _), (_, operands)] => do
    let .call ← kind? nested type | none
    assemble nested { types := [type], values := [value], operands := [operands] }
  | _ => none

mutual

def ofJson (nested : Bool) : Json → Option Outline
  | .object members => assemble nested (parts members)
  | .array items => assembleRow nested (row items)
  | _ => none

def parts : List (Option String × Json) → Parts
  | [] => ⟨[], [], []⟩
  | (key, j) :: ms =>
    let rest := parts ms
    match key with
    | some "type" => { rest with types := j :: rest.types }
    | some "value" => { rest with values := j :: rest.values }
    | some "operands" => { rest with operands := listOf j :: rest.operands }
    | _ => rest

def row : List Json → List (Json × Option (List Outline))
  | [] => []
  | j :: js => (j, listOf j) :: row js

def listOf : Json → Option (List Outline)
  | .array items => allOf items
  | _ => none

def allOf : List Json → Option (List Outline)
  | [] => some []
  | j :: js => do
    let o ← ofJson true j
    return o :: (← allOf js)

end

mutual

/-- Looks the operators up and counts their operands, a node before its operands. -/
def toProgram : Outline → Except JsonFault Program
  | feature i => .ok (.feature i)
  | constant c => .ok (.constant c)
  | call name operands =>
    match Operator.ofName? name with
    | none => .error (.unknownFunction (Text.strip name))
    | some op =>
      if operands.length = op.arity then do return .call op (← allToProgram operands)
      else .error (.program (.operandCount op.name op.arity operands.length))

def allToProgram : List Outline → Except JsonFault (List Program)
  | [] => .ok []
  | o :: os => do
    let p ← o.toProgram
    return p :: (← allToProgram os)

end

end Outline

/-- The program of a JSON value; `nested` says that the value is a part of a value that
was read as a whole before. -/
def ofJson (nested : Bool) (j : Json) : Except JsonFault Program :=
  if j.isReadable then
    match Outline.ofJson nested j with
    | some o => o.toProgram
    | none => malformed
  else malformed

def ofJsonText (s : String) : Except Error Program :=
  (decodeText (ofJson false) s).mapError Error.json

end Program
end SymbolicRegression
