import StyleModules.Text.Quoted
import StyleModules.Json

/-!
# Failures of reading JSON

What is wrong with a text, and where.  Lines count from one, columns count bytes.
-/

namespace StyleModules.Json

/-- A place in a text. -/
structure Place where
  line : Nat
  column : Nat
deriving DecidableEq, Inhabited, Repr

/-- What was found where something else was expected. -/
inductive Found where
  | null
  | bool (b : Bool)
  | integer (n : Int)
  | number (negative : Bool) (magnitude : Decimal)
  | text (s : String)
  | array
  | object
deriving DecidableEq, Inhabited, Repr

/-- What is wrong with a text. -/
inductive Problem where
  | endInList
  | endInObject
  | endInText
  | endInValue
  | expectedColon
  | expectedListEnd
  | expectedObjectEnd
  | expectedWord
  | expectedValue
  | badEscape
  | unfinishedEscape
  | loneSurrogate
  | controlCharacter
  | badNumber
  | numberTooLarge
  | keyNotText
  | trailingComma
  | trailingCharacters
  | wrongType (found : Found) (expected : String)
  | wrongLength (length : Nat) (expected : String)
  | missingField (name : String)
  | repeatedField (name : String)
  | unknownVariant (name : String) (known : List String)
deriving DecidableEq, Inhabited, Repr

/-- A problem and its place. -/
structure Failure where
  problem : Problem
  place : Place
deriving DecidableEq, Inhabited, Repr

def Place.after (p : Place) (c : Char) : Place :=
  if c = '\n' then ⟨p.line + 1, 0⟩ else ⟨p.line, p.column + c.utf8Size⟩

/-- The place some bytes further in a text, which may be inside a character. -/
def Place.afterBytes : Nat → List Char → Place → Place
  | 0, _, p => p
  | _, [], p => p
  | n + 1, c :: cs, p =>
    if c.utf8Size ≤ n + 1 then afterBytes (n + 1 - c.utf8Size) cs (p.after c)
    else ⟨p.line, p.column + n + 1⟩

def Found.describe : Found → String
  | null => "null"
  | bool true => tagged "boolean" "true"
  | bool false => tagged "boolean" "false"
  | integer n => tagged "integer" (String.ofList (Decimal.signed n))
  | number negative d => tagged "floating point" (String.ofList (writeNumber negative d))
  | text s => "string " ++ Text.quote s
  | array => "sequence"
  | object => "map"
where
  /-- A value behind the name of its kind. -/
  tagged (kind text : String) : String := kind ++ " \x60" ++ text ++ "\x60"

namespace Problem

/-- A name as it stands in messages. -/
def marked (name : String) : String := "\x60" ++ name ++ "\x60"

def oneOf : List String → String
  | [] => "there are no variants"
  | [a] => "expected " ++ marked a
  | [a, b] => "expected " ++ marked a ++ " or " ++ marked b
  | names => "expected one of " ++ ", ".intercalate (names.map marked)

def message : Problem → String
  | endInList => "EOF while parsing a list"
  | endInObject => "EOF while parsing an object"
  | endInText => "EOF while parsing a string"
  | endInValue => "EOF while parsing a value"
  | expectedColon => "expected " ++ marked ":"
  | expectedListEnd => "expected " ++ marked "," ++ " or " ++ marked "]"
  | expectedObjectEnd => "expected " ++ marked "," ++ " or " ++ marked "\x7d"
  | expectedWord => "expected ident"
  | expectedValue => "expected value"
  | badEscape => "invalid escape"
  | unfinishedEscape => "unexpected end of hex escape"
  | loneSurrogate => "lone leading surrogate in hex escape"
  | controlCharacter => "control character (\\u0000-\\u001F) found while parsing a string"
  | badNumber => "invalid number"
  | numberTooLarge => "number out of range"
  | keyNotText => "key must be a string"
  | trailingComma => "trailing comma"
  | trailingCharacters => "trailing characters"
  | wrongType found expected => "invalid type: " ++ found.describe ++ ", expected " ++ expected
  | wrongLength length expected => "invalid length " ++ toString length ++ ", expected " ++ expected
  | missingField name => "missing field " ++ marked name
  | repeatedField name => "duplicate field " ++ marked name
  | unknownVariant name known => "unknown variant " ++ marked name ++ ", " ++ oneOf known

end Problem

def Failure.message (f : Failure) : String :=
  f.problem.message ++ " at line " ++ toString f.place.line ++ " column " ++ toString f.place.column

end StyleModules.Json
