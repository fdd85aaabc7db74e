import SymbolicRegression.Toml.Value

/-!
TOML documents: entries and headers on lines, and the tables they build.

A table may be opened by one header only.  Headers and dotted keys also make the
tables they pass through; those of a dotted key can be extended by dotted keys alone.
-/

namespace SymbolicRegression
namespace Toml

/-- A table comes from a header of its own, from the header of a table inside it, or from a
dotted key. -/
inductive Origin where
  | header
  | passed
  | dotted
deriving DecidableEq

inductive Item where
  | value (j : Json)
  | table (origin : Origin) (members : List (String × Item))
  /-- Tables under repeated headers, the last one first. -/
  | tables (elements : List (List (String × Item)))

abbrev Members := List (String × Item)

mutual

def Item.toJson : Item → Json
  | .value j => j
  | .table _ members => .object (membersToJson members)
  | .tables elements => .array (tablesToJson elements)

def membersToJson : List (String × Item) → List (Option String × Json)
  | [] => []
  | (key, item) :: ms => (some key, item.toJson) :: membersToJson ms

def tablesToJson : List (List (String × Item)) → List Json
  | [] => []
  | members :: es => tablesToJson es ++ [.object (membersToJson members)]

end

namespace Members

def put (key : String) (item : Item) : Members → Members
  | [] => [(key, item)]
  | (k, i) :: ms => if k = key then (key, item) :: ms else (k, i) :: put key item ms

/-- Changes the table at the end of a path.  Tables that are not there are made;
`mayEnter` says which tables the path may pass through, of repeated ones it passes
through the last. -/
def change (made : Origin) (mayEnter : Origin → Bool) (f : Members → Option Members) :
    List String → Members → Option Members
  | [], ms => f ms
  | key :: path, ms =>
    match ms.lookup key with
    | none => do return put key (.table made (← change made mayEnter f path [])) ms
    | some (.table origin inner) =>
      if mayEnter origin then do
        return put key (.table origin (← change made mayEnter f path inner)) ms
      else none
    | some (.tables (last :: earlier)) => do
      return put key (.tables ((← change made mayEnter f path last) :: earlier)) ms
    | some _ => none

def addValue (key : String) (j : Json) (ms : Members) : Option Members :=
  if (ms.lookup key).isNone then some (put key (.value j) ms) else none

/-- Adds a value under a dotted key.  The table that takes the value has to belong to
dotted keys. -/
def addEntry (j : Json) : List String → Members → Option Members
  | [], _ => none
  | [key], ms => addValue key j ms
  | path, ms =>
    let key := path.getLast?.getD ""
    let parent := path.dropLast
    let last := parent.getLast?.getD ""
    let add (above : Members) : Option Members :=
      match above.lookup last with
      | none => some (put last (.table .dotted [(key, .value j)]) above)
      | some (.table .dotted inner) => do
        return put last (.table .dotted (← addValue key j inner)) above
      | some _ => none
    change .dotted (· != .header) add parent.dropLast ms

def openTable (path : List String) (ms : Members) : Option Members := do
  let key ← path.getLast?
  let enter (above : Members) : Option Members :=
    match above.lookup key with
    | none => some (put key (.table .header []) above)
    | some (.table .passed inner) => some (put key (.table .header inner) above)
    | some _ => none
  change .passed (fun _ => true) enter path.dropLast ms

def openRepeated (path : List String) (ms : Members) : Option Members := do
  let key ← path.getLast?
  let enter (above : Members) : Option Members :=
    match above.lookup key with
    | none => some (put key (.tables [[]]) above)
    | some (.tables elements) => some (put key (.tables ([] :: elements)) above)
    | some _ => none
  change .passed (fun _ => true) enter path.dropLast ms

end Members

/-- The table of the entries between two braces. -/
def inlineTable (entries : List (List String × Json)) : Option Json := do
  let ms ← entries.foldlM (fun ms (key, j) => Members.addEntry j key ms) []
  return .object (membersToJson ms)

/-- A value that may be nested so deep. -/
def value : Nat → List Char → Option (Json × List Char)
  | 0, s => scalar s
  | depth + 1, s =>
    (scalar s <|> array (value depth) s) <|> do
      let (entries, r) ← inlineEntries (value depth) s
      return (← inlineTable entries, r)

/-! ### Lines -/

inductive Line where
  | entry (key : List String) (j : Json)
  | header (path : List String)
  | repeatedHeader (path : List String)

def header : Reader Line := do
  let _ ← char '['
  if ← goesOnWith '[' then
    let _ ← char '['
    let path ← dottedKey
    word [']', ']']
    return .repeatedHeader path
  let path ← dottedKey
  let _ ← char ']'
  return .header path

/-- What a line holds, if it holds anything but blanks and a comment. -/
def line : Reader (Option Line) := do
  blanks
  let content ← (do
    if ← goesOnWith '[' then return some (← header)
    if (← goesOnWith '#') || (← goesOnWith '\n') || (← goesOnWith '\r') || (← atEnd) then
      return none
    let (key, j) ← entry (value nestingLimit)
    return some (.entry key j))
  lineRest
  return content

/-- All lines; a mark of the byte order may stand in front of them. -/
def lines : Reader (List Line) := do
  let _ ← (do let _ ← char (Char.ofNat 0xFEFF)) <|> return ()
  let read ← whileMore do
    let content ← line
    let more ← (do newline; return true) <|> return false
    return (content, more)
  if ← atEnd then return read.filterMap id else failure

/-- A document while it is read: all tables, and the path of the open one. -/
structure Document where
  members : Members
  current : List String

def Document.add (d : Document) : Line → Option Document
  | .entry key j => do
    let add := Members.addEntry j key
    let members ← Members.change .passed (fun _ => true) add d.current d.members
    return { d with members }
  | .header path => do return ⟨← Members.openTable path d.members, path⟩
  | .repeatedHeader path => do return ⟨← Members.openRepeated path d.members, path⟩

def read? (text : String) : Option Json := do
  let (ls, _) ← lines.run text.toList
  let d ← ls.foldlM Document.add ⟨[], []⟩
  return .object (membersToJson d.members)

end Toml
end SymbolicRegression
