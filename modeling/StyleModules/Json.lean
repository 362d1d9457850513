import StyleModules.Decimal

/-!
# JSON values

Values as they are written to files: on one line, or with each item on a line of its own.
-/

namespace StyleModules

/-- A JSON value; the fields of an object keep their order. -/
inductive Json where
  | null
  | bool (b : Bool)
  | integer (n : Int)
  /-- A number that is not kept as an integer. -/
  | number (negative : Bool) (magnitude : Decimal)
  | text (s : String)
  | array (items : List Json)
  | object (fields : List (String × Json))
deriving Inhabited, Repr

namespace Json

/-- The absent value is null. -/
def ofOption {α : Type} (f : α → Json) : Option α → Json
  | some a => f a
  | none => null

def hexDigit (n : Nat) : Char := Nat.digitChar (n % 16)

def escape (c : Char) : List Char :=
  if c = '"' then ['\\', '"']
  else if c = '\\' then ['\\', '\\']
  else if c = '\n' then ['\\', 'n']
  else if c = '\r' then ['\\', 'r']
  else if c = '\t' then ['\\', 't']
  else if c.toNat = 8 then ['\\', 'b']
  else if c.toNat = 12 then ['\\', 'f']
  else if c.toNat < 32 then ['\\', 'u', '0', '0', hexDigit (c.toNat / 16), hexDigit c.toNat]
  else [c]

def quote (s : String) : List Char := '"' :: s.toList.flatMap escape ++ ['"']

def writeNumber (negative : Bool) (d : Decimal) : List Char :=
  if negative then '-' :: d.pointed else d.pointed

mutual

/-- A value on one line, without spaces. -/
def writeCompact : Json → List Char
  | null => ['n', 'u', 'l', 'l']
  | bool true => ['t', 'r', 'u', 'e']
  | bool false => ['f', 'a', 'l', 's', 'e']
  | integer n => Decimal.signed n
  | number negative d => writeNumber negative d
  | text s => quote s
  | array items => '[' :: writeCompactItems items ++ [']']
  | object fields => '\x7b' :: writeCompactFields fields ++ ['\x7d']

def writeCompactItems : List Json → List Char
  | [] => []
  | [v] => writeCompact v
  | v :: w :: vs => writeCompact v ++ ',' :: writeCompactItems (w :: vs)

def writeCompactFields : List (String × Json) → List Char
  | [] => []
  | [(name, v)] => quote name ++ ':' :: writeCompact v
  | (name, v) :: f :: fs => quote name ++ ':' :: writeCompact v ++ ',' :: writeCompactFields (f :: fs)

end

def compact (v : Json) : String := String.ofList v.writeCompact

def lineStart (depth : Nat) : List Char := '\n' :: List.replicate (2 * depth) ' '

mutual

/-- A value with its items and fields on lines of their own. -/
def writePretty (depth : Nat) : Json → List Char
  | null => ['n', 'u', 'l', 'l']
  | bool true => ['t', 'r', 'u', 'e']
  | bool false => ['f', 'a', 'l', 's', 'e']
  | integer n => Decimal.signed n
  | number negative d => writeNumber negative d
  | text s => quote s
  | array [] => ['[', ']']
  | array (v :: vs) => '[' :: writePrettyItems (depth + 1) (v :: vs) ++ lineStart depth ++ [']']
  | object [] => ['\x7b', '\x7d']
  | object (f :: fs) =>
    '\x7b' :: writePrettyFields (depth + 1) (f :: fs) ++ lineStart depth ++ ['\x7d']

def writePrettyItems (depth : Nat) : List Json → List Char
  | [] => []
  | [v] => lineStart depth ++ writePretty depth v
  | v :: w :: vs => lineStart depth ++ writePretty depth v ++ ',' :: writePrettyItems depth (w :: vs)

def writePrettyFields (depth : Nat) : List (String × Json) → List Char
  | [] => []
  | [(name, v)] => lineStart depth ++ quote name ++ ':' :: ' ' :: writePretty depth v
  | (name, v) :: f :: fs =>
    lineStart depth ++ quote name ++ ':' :: ' ' :: writePretty depth v
      ++ ',' :: writePrettyFields depth (f :: fs)

end

def pretty (v : Json) : String := String.ofList (v.writePretty 0)

end Json

end StyleModules
