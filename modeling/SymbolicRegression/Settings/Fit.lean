import SymbolicRegression.Json.Writer
import SymbolicRegression.Settings.Boosting
import SymbolicRegression.Settings.Evolution
import SymbolicRegression.Toml.Document

/-!
All settings of a fit in one flat record, as it stands in a file of settings.
-/

namespace SymbolicRegression

inductive Flavor where
  | vanilla
  | boosting
deriving DecidableEq, Repr

namespace Flavor

def name : Flavor → String
  | vanilla => "vanilla"
  | boosting => "boosting"

/-- The flavor of a name, in any case and with blanks around it. -/
def parse (s : String) : Except Error Flavor :=
  match Text.fold s with
  | "vanilla" => .ok vanilla
  | "boosting" => .ok boosting
  | _ => .error (.unknownFlavor s)

end Flavor

structure FitSettings where
  flavor : String := "vanilla"
  evolution : EvolutionSettings := {}
  boosting : BoostingSettings := {}
  /-- Names that belong to no setting, in ascending order. -/
  unknown : List String := []

namespace FitSettings

/-- The settings in the order in which they are written. -/
def table : List (Setting FitSettings) :=
  ⟨"flavor", [], .text ⟨(·.flavor), fun v s => { s with flavor := v }⟩⟩ ::
  (EvolutionSettings.table.map
    (Setting.within ⟨(·.evolution), fun v s => { s with evolution := v }⟩) ++
  BoostingSettings.table.map
    (Setting.within ⟨(·.boosting), fun v s => { s with boosting := v }⟩))

def addUnknown (names : List String) (s : FitSettings) : FitSettings :=
  { s with unknown := ((s.unknown ++ names).mergeSort fun a b => decide (a ≤ b)).eraseDups }

def checkUnknown (s : FitSettings) : Except Error Unit :=
  if s.unknown.isEmpty then .ok () else misconfigured (.unknownOptions s.unknown)

def validate (s : FitSettings) : Except Error Unit := do
  s.checkUnknown
  let _ ← Flavor.parse s.flavor
  s.evolution.validate
  s.boosting.validate

/-- Two records of settings are equal; numbers are compared as numbers. -/
def same (s t : FitSettings) : Bool := Setting.agree table s t && s.unknown == t.unknown

/-! ### Reading and writing -/

def toJson (s : FitSettings) : Json := .record (Setting.members table s)

def json (s : FitSettings) : String := s.toJson.compact

/-- The settings of an object.  Settings that it leaves out have their usual values. -/
def ofJson (j : Json) : Except JsonFault FitSettings :=
  match j with
  | .object members =>
    if j.isReadable then do
      let (s, unknown) ← Setting.putMembers table [] members {}
      return s.addUnknown unknown
    else Json.malformed
  | _ => Json.malformed

def ofJsonText (text : String) : Except Error FitSettings := do
  let s ← (Json.decodeText ofJson text).mapError Error.json
  s.checkUnknown
  return s

def ofTomlText (text : String) : Except Error FitSettings := do
  let s ← match Toml.read? text with
    | some j => (ofJson j).mapError fun _ => Error.toml
    | none => throw .toml
  s.checkUnknown
  return s

/-- What stands behind the last dot of a file name, unless the dot begins the name. -/
def extension? (file : String) : Option String :=
  match file.toList.reverse.span (· != '.') with
  | (ext, _ :: _ :: _) => some (String.ofList ext.reverse)
  | _ => none

/-- The settings in a file of the given name and content, if it could be read. -/
def ofFile (name : String) (content : Option String) : Except Error FitSettings :=
  match content with
  | none => .error .io
  | some text =>
    match extension? name with
    | some "toml" => ofTomlText text
    | some "json" => ofJsonText text
    | ext => misconfigured (.fileFormat ext)

end FitSettings

end SymbolicRegression
