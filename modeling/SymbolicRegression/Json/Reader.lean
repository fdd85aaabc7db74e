import SymbolicRegression.Decimal.Numeral
import SymbolicRegression.Json.Basic

/-!
Reading JSON.

Every step returns what is left of the text, with the proof that it is shorter, or
nothing when the text cannot go on.  Values are kept to a set depth of nested arrays
and objects; what lies deeper is read to its end but only to be skipped.
-/

namespace SymbolicRegression
namespace Json
namespace Reader

/-- How deep arrays and objects may be nested in a value that is used. -/
def depthLimit : Nat := 127

/-- What is left after at least one character of `s`, if reading can go on. -/
abbrev Rest (s : List Char) := Option { r : List Char // r.length < s.length }

def isSpace (c : Char) : Bool := c == ' ' || c == '\n' || c == '\t' || c == '\r'

def dropSpaces (s : List Char) : List Char := s.dropWhile isSpace

theorem length_dropSpaces_le (s : List Char) : (dropSpaces s).length ≤ s.length :=
  (List.dropWhile_suffix _).length_le

theorem length_lt_of_dropSpaces {s r : List Char} {c : Char} (h : dropSpaces s = c :: r) :
    r.length < s.length := by
  have := length_dropSpaces_le s
  rw [h, List.length_cons] at this
  omega

/-! ### Texts -/

/-- A character of a text as it is written: itself, or a sixteen-bit code. -/
inductive TextUnit where
  | plain (c : Char)
  | code (n : Nat)

def hexValue? (c : Char) : Option Nat :=
  if c.isDigit then some (c.toNat - '0'.toNat)
  else if 'a' ≤ c ∧ c ≤ 'f' then some (c.toNat - 'a'.toNat + 10)
  else if 'A' ≤ c ∧ c ≤ 'F' then some (c.toNat - 'A'.toNat + 10)
  else none

def code? (a b c d : Char) : Option Nat := do
  return 4096 * (← hexValue? a) + 256 * (← hexValue? b) + 16 * (← hexValue? c) + (← hexValue? d)

def unescape? : Char → Option Char
  | 'b' => some (Char.ofNat 8)
  | 't' => some '\t'
  | 'n' => some '\n'
  | 'f' => some (Char.ofNat 12)
  | 'r' => some '\r'
  | '/' => some '/'
  | c => if c = Text.quoteMark ∨ c = Text.backslash then some c else none

/-- Prepends a unit to the units read from a shorter text. -/
def prepend {s t : List Char} (u : TextUnit) (h : s.length < t.length) :
    Option (List TextUnit × { r : List Char // r.length < s.length }) →
    Option (List TextUnit × { r : List Char // r.length < t.length })
  | none => none
  | some (us, ⟨r, hr⟩) => some (u :: us, ⟨r, by omega⟩)

/-- The units up to the closing quote, and what stands behind it. -/
def units : (s : List Char) → Option (List TextUnit × { r : List Char // r.length < s.length })
  | [] => none
  | c :: s =>
    if c = Text.quoteMark then some ([], ⟨s, by simp⟩)
    else if c = Text.backslash then
      match s with
      | 'u' :: a :: b :: c' :: d :: rest =>
        match code? a b c' d with
        | some n => prepend (.code n) (by simp only [List.length_cons]; omega) (units rest)
        | none => none
      | e :: rest =>
        match unescape? e with
        | some x => prepend (.plain x) (by simp only [List.length_cons]; omega) (units rest)
        | none => none
      | [] => none
    else if c.toNat < 32 then none
    else prepend (.plain c) (by simp) (units s)

/-- The characters of a row of units: a high surrogate has to stand before a low one
and makes one character with it. -/
def characters? : List TextUnit → Option (List Char)
  | [] => some []
  | .plain c :: us => (characters? us).map (c :: ·)
  | .code n :: us =>
    if n < 0xD800 ∨ 0xDFFF < n then (characters? us).map (Char.ofNat n :: ·)
    else if n < 0xDC00 then
      match us with
      | .code m :: rest =>
        if 0xDC00 ≤ m ∧ m ≤ 0xDFFF then
          (characters? rest).map (Char.ofNat (0x10000 + 0x400 * (n - 0xD800) + (m - 0xDC00)) :: ·)
        else none
      | _ => none
    else none

/-- A text whose opening quote has been read; the text itself is `none` if a
surrogate stands alone in it. -/
def quoted (s : List Char) : Option (Option String × { r : List Char // r.length < s.length }) :=
  (units s).map fun (us, r) => ((characters? us).map String.ofList, r)

/-! ### Numbers -/

def digits (s : List Char) : List Char × { r : List Char // r.length ≤ s.length } :=
  (s.takeWhile Char.isDigit, ⟨s.dropWhile Char.isDigit, (List.dropWhile_suffix _).length_le⟩)

def fraction? (s : List Char) :
    Option (Option (List Char) × { r : List Char // r.length ≤ s.length }) :=
  match s with
  | '.' :: t =>
    match digits t with
    | ([], _) => none
    | (ds, ⟨r, hr⟩) => some (some ds, ⟨r, by simp; omega⟩)
  | t => some (none, ⟨t, Nat.le_refl _⟩)

/-- The digits of an exponent behind its sign. -/
def exponentDigits? (negative : Bool) (s : List Char) :
    Option (Int × { r : List Char // r.length ≤ s.length }) :=
  match digits s with
  | ([], _) => none
  | (ds, r) =>
    let n : Int := Decimal.valueOf ds
    some (if negative then -n else n, r)

/-- Whether the sign of an exponent is a minus, and what stands behind it. -/
def sign (s : List Char) : Bool × { r : List Char // r.length ≤ s.length } :=
  match s with
  | '-' :: t => (true, ⟨t, by simp⟩)
  | '+' :: t => (false, ⟨t, by simp⟩)
  | t => (false, ⟨t, Nat.le_refl _⟩)

def exponent? (s : List Char) :
    Option (Option Int × { r : List Char // r.length ≤ s.length }) :=
  match s with
  | c :: t =>
    if c = 'e' ∨ c = 'E' then
      let (negative, ⟨u, hu⟩) := sign t
      (exponentDigits? negative u).map fun (e, ⟨r, hr⟩) => (some e, ⟨r, by simp; omega⟩)
    else some (none, ⟨c :: t, Nat.le_refl _⟩)
  | [] => some (none, ⟨[], Nat.le_refl _⟩)

/-- The value of a number: a whole number if it is written as one and fits a word,
else a double, unless it is too large for one. -/
def numberValue (negative : Bool) (whole : List Char) (fraction : Option (List Char))
    (exponent : Option Int) : Json :=
  let n := Decimal.valueOf whole
  let isWhole := fraction.isNone && exponent.isNone
  if isWhole && !negative && n < Decimal.wordLimit then number (.natural n)
  else if isWhole && negative && 0 < n && n ≤ Nat.pow 2 63 then number (.negative n)
  else
    let ds := fraction.getD []
    let x := Decimal.nearest (Decimal.valueOf (whole ++ ds)) (exponent.getD 0 - ds.length)
    if x.isFinite then number (.real (if negative then -x else x)) else unreadable

def unsigned? (negative : Bool) (s : List Char) :
    Option (Json × { r : List Char // r.length < s.length }) :=
  match hs : s with
  | [] => none
  | c :: t =>
    if c.isDigit then
      let (ds, ⟨r₁, h₁⟩) := digits t
      if c = '0' ∧ ds ≠ [] then none
      else
        match fraction? r₁ with
        | none => none
        | some (f, ⟨r₂, h₂⟩) =>
          match exponent? r₂ with
          | none => none
          | some (e, ⟨r₃, h₃⟩) => some (numberValue negative (c :: ds) f e, ⟨r₃, by simp; omega⟩)
    else none

def number? (s : List Char) : Option (Json × { r : List Char // r.length < s.length }) :=
  match s with
  | '-' :: t => (unsigned? true t).map fun (j, ⟨r, hr⟩) => (j, ⟨r, by simp; omega⟩)
  | t => unsigned? false t

/-! ### Values -/

/-- A fixed word whose first letter has been read, with the letters that have to
follow. -/
def word {s : List Char} (j : Json) (letters t : List Char) (h : t.length < s.length) :
    Json × Rest s :=
  if letters.isPrefixOf t then
    (j, some ⟨t.drop letters.length, Nat.lt_of_le_of_lt (by simp) h⟩)
  else (broken, none)

def Rest.weaken {s t : List Char} (h : s.length ≤ t.length) : Rest s → Rest t
  | none => none
  | some ⟨r, hr⟩ => some ⟨r, by omega⟩

/-- An array or object opened with `depth` levels to go: without any it is worth only
whether it can be skipped. -/
def sealed (depth : Nat) (j : Json) : Json :=
  match depth with
  | 0 => if j.isIntact then unreadable else broken
  | _ + 1 => j

mutual

/-- Reads a value.  `depth` is the number of levels that may still be opened and kept. -/
def value (depth : Nat) (s : List Char) : Json × Rest s :=
  match h : dropSpaces s with
  | [] => (broken, none)
  | c :: t =>
    have ht : t.length < s.length := length_lt_of_dropSpaces h
    if c = Text.quoteMark then
      match quoted t with
      | some (some str, ⟨r, hr⟩) => (text str, some ⟨r, by omega⟩)
      | some (none, ⟨r, hr⟩) => (unreadable, some ⟨r, by omega⟩)
      | none => (broken, none)
    else if c = '[' then
      match h' : dropSpaces t with
      | ']' :: r =>
        (sealed depth (array []), some ⟨r, by have := length_lt_of_dropSpaces h'; omega⟩)
      | _ =>
        let (js, rest) := items (depth - 1) t
        (sealed depth (array js), rest.weaken (Nat.le_of_lt ht))
    else if c = Char.ofNat 123 then
      match h' : dropSpaces t with
      | d :: r =>
        if d = Char.ofNat 125 then
          (sealed depth (object []), some ⟨r, by have := length_lt_of_dropSpaces h'; omega⟩)
        else
          let (ms, rest) := members (depth - 1) t
          (sealed depth (object ms), rest.weaken (Nat.le_of_lt ht))
      | [] => (sealed depth (object [(none, broken)]), none)
    else if c = 't' then word (bool true) ['r', 'u', 'e'] t ht
    else if c = 'f' then word (bool false) ['a', 'l', 's', 'e'] t ht
    else if c = 'n' then word null ['u', 'l', 'l'] t ht
    else
      match number? (c :: t) with
      | some (j, ⟨r, hr⟩) => (j, some ⟨r, by simp at hr; omega⟩)
      | none => (broken, none)
termination_by 2 * s.length

/-- Reads the values of an array up to its closing bracket. -/
def items (depth : Nat) (s : List Char) : List Json × Rest s :=
  match value depth s with
  | (j, none) => ([j], none)
  | (j, some ⟨r, hr⟩) =>
    match h : dropSpaces r with
    | ',' :: t =>
      have ht : t.length < r.length := length_lt_of_dropSpaces h
      let (js, rest) := items depth t
      (j :: js, rest.weaken (by omega))
    | ']' :: t => ([j], some ⟨t, by have := length_lt_of_dropSpaces h; omega⟩)
    | _ => ([j, broken], none)
termination_by 2 * s.length + 1

/-- Reads the members of an object up to its closing brace. -/
def members (depth : Nat) (s : List Char) : List (Option String × Json) × Rest s :=
  match h : dropSpaces s with
  | [] => ([(none, broken)], none)
  | c :: t =>
    have ht : t.length < s.length := length_lt_of_dropSpaces h
    if c = Text.quoteMark then
      match quoted t with
      | none => ([(none, broken)], none)
      | some (key, ⟨u, hu⟩) =>
        match h' : dropSpaces u with
        | ':' :: v =>
          have hv : v.length < u.length := length_lt_of_dropSpaces h'
          match value depth v with
          | (j, none) => ([(key, j)], none)
          | (j, some ⟨r, hr⟩) =>
            match h'' : dropSpaces r with
            | [] => ([(key, j), (none, broken)], none)
            | d :: w =>
              have hw : w.length < r.length := length_lt_of_dropSpaces h''
              if d = ',' then
                let (ms, rest) := members depth w
                ((key, j) :: ms, rest.weaken (by omega))
              else if d = Char.ofNat 125 then ([(key, j)], some ⟨w, by omega⟩)
              else ([(key, j), (none, broken)], none)
        | _ => ([(key, broken)], none)
    else ([(none, broken)], none)
termination_by 2 * s.length + 1

end

end Reader

/-- The value at the start of a text, and whether nothing but blanks follows it. -/
def ofChars (s : List Char) : Json × Bool :=
  match Reader.value Reader.depthLimit s with
  | (j, some ⟨r, _⟩) => (j, (Reader.dropSpaces r).isEmpty)
  | (j, none) => (j, false)

/-- Reads a text as one value and decodes it.  A fault that the decoder meets inside
the value comes before anything that follows the value. -/
def decodeText {α : Type} (decode : Json → Except JsonFault α) (s : String) :
    Except JsonFault α := do
  let (j, atEnd) := ofChars s.toList
  let a ← decode j
  if atEnd then return a else throw .malformed

end Json
end SymbolicRegression
