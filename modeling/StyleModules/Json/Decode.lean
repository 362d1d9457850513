import StyleModules.Json.Number
import StyleModules.Json.Skip
import StyleModules.Path
import StyleModules.Table

/-!
# Values of a known shape

Readers for texts, lists, tables, variants and records.  A record is an object with known fields,
of which the others are skipped, or a list of its fields in order.
-/

namespace StyleModules.Json.Reader

/-- Fails because a value is not what was expected.  Texts and numbers are read first, so the
failure shows behind them. -/
def wrongType {α : Type} (expected : String) : Reader α := do
  match ← valueStart with
  | 'n' => skip; word ['u', 'l', 'l']; fail (.wrongType .null expected)
  | 't' => skip; word ['r', 'u', 'e']; fail (.wrongType (.bool true) expected)
  | 'f' => skip; word ['a', 'l', 's', 'e']; fail (.wrongType (.bool false) expected)
  | '-' => skip; fail (.wrongType (← number true) expected)
  | '"' => skip; fail (.wrongType (.text (← textRest)) expected)
  | '[' => fail (.wrongType .array expected)
  | '\x7b' => fail (.wrongType .object expected)
  | c => if c.isDigit then fail (.wrongType (← number false) expected) else failNext .expectedValue

/-- A text, under the name that it has in failures. -/
def textAs (expected : String) : Reader String := do
  if (← valueStart) = '"' then skip; textRest else wrongType expected

def text : Reader String := textAs "a string"

def path : Reader Path := Path.mk <$> textAs "path string"

def optional {α : Type} (r : Reader α) : Reader (Option α) := do
  if (← peekSolid) = some 'n' then skip; word ['u', 'l', 'l']; pure none else some <$> r

/-- There is another item before the end of the list. -/
def hasItem (isFirst : Bool) : Reader Bool := do
  match ← peekSolid with
  | none => failNext .endInList
  | some ']' => pure false
  | some c =>
    if isFirst then pure true
    else if c = ',' then
      skip
      match ← peekSolid with
      | some ']' => failNext .trailingComma
      | some _ => pure true
      | none => failNext .endInValue
    else failNext .expectedListEnd

/-- There is another field before the end of the object; its name comes next. -/
def hasField (isFirst : Bool) : Reader Bool := do
  match ← peekSolid with
  | none => failNext .endInObject
  | some '\x7d' => pure false
  | some c =>
    if isFirst then if c = '"' then pure true else failNext .keyNotText
    else if c = ',' then
      skip
      match ← peekSolid with
      | some '"' => pure true
      | some '\x7d' => failNext .trailingComma
      | some _ => failNext .keyNotText
      | none => failNext .endInValue
    else failNext .expectedObjectEnd

def colon : Reader Unit := do
  match ← peekSolid with
  | some ':' => skip
  | some _ => failNext .expectedColon
  | none => failNext .endInObject

/-- The items of a list up to its end, at most so many. -/
def items {α : Type} (r : Reader α) : Nat → List α → Reader (List α)
  | 0, _ => fail .endInList
  | count + 1, before => do
    if ← hasItem before.isEmpty then items r count ((← r) :: before)
    else skip; pure before.reverse

def list {α : Type} (r : Reader α) : Reader (List α) := do
  if (← valueStart) = '[' then skip; items r (← budget) [] else wrongType "a sequence"

/-- The entries of a table up to its end, at most so many. -/
def entries {α : Type} (r : Reader α) : Nat → Bool → Table String α → Reader (Table String α)
  | 0, _, _ => fail .endInObject
  | count + 1, isFirst, t => do
    if ← hasField isFirst then
      skip
      let name ← textRest
      colon
      entries r count false (t.insert name (← r))
    else skip; pure t

/-- A table; of several entries for one key the last one counts. -/
def table {α : Type} (r : Reader α) : Reader (Table String α) := do
  if (← valueStart) = '\x7b' then skip; entries r (← budget) true .empty else wrongType "a map"

def variantNamed {α : Type} (known : List (String × α)) (name : String) : Reader α :=
  match known.lookup name with
  | some a => pure a
  | none => fail (.unknownVariant name (known.map Prod.fst))

/-- A variant by its name, which may also be the name of a field that is null. -/
def variant {α : Type} (known : List (String × α)) : Reader α := do
  match ← peekSolid with
  | some '"' => skip; variantNamed known (← textRest)
  | some '\x7b' =>
    skip
    let a ← variantNamed known (← textAs "variant identifier")
    colon
    if (← valueStart) = 'n' then skip; word ['u', 'l', 'l'] else wrongType "unit"
    match ← peekSolid with
    | some '\x7d' => skip; pure a
    | some _ => fail .expectedValue
    | none => fail .endInObject
  | _ => failNext (if (← peek).isNone then .endInValue else .expectedValue)

/-- A field of a record. -/
structure Field (ρ : Type) where
  name : String
  isRequired : Bool
  /-- Reads the value of the field into a record. -/
  read : ρ → Reader ρ

/-- The shape of a record. -/
structure Shape (ρ : Type) where
  name : String
  /-- The record before any field is read. -/
  start : ρ
  fields : List (Field ρ)
  /-- A list may end before all fields are given. -/
  isOpen : Bool

namespace Shape

variable {ρ : Type}

/-- The record in failures. -/
def title (s : Shape ρ) : String := "struct " ++ s.name

/-- The record in failures about the number of its fields. -/
def titleWithLength (s : Shape ρ) : String :=
  s.title ++ " with " ++ toString s.fields.length
    ++ (if s.fields.length = 1 then " element" else " elements")

def field? (s : Shape ρ) (name : String) : Option (Field ρ) :=
  s.fields.find? (fun f ↦ f.name == name)

/-- The first field that must be there and is not. -/
def missing? (s : Shape ρ) (seen : List String) : Option (Field ρ) :=
  s.fields.find? (fun f ↦ f.isRequired && !seen.contains f.name)

end Shape

/-- The fields of an object up to its end, at most so many. -/
def fields {ρ : Type} (s : Shape ρ) : Nat → List String → Bool → ρ → Reader ρ
  | 0, _, _, _ => fail .endInObject
  | count + 1, seen, isFirst, record => do
    if ← hasField isFirst then
      skip
      let name ← textRest
      match s.field? name with
      | some f =>
        if seen.contains name then
          if (← peekSolid) = some '\x7d' then skip
          fail (.repeatedField name)
        else
          colon
          fields s count (name :: seen) false (← f.read record)
      | none =>
        colon
        skipAny
        fields s count seen false record
    else
      skip
      match s.missing? seen with
      | some f => fail (.missingField f.name)
      | none => pure record

def endOfList : Reader Unit := do
  match ← peekSolid with
  | some ']' => skip
  | some ',' =>
    skip
    if (← peekSolid) = some ']' then failNext .trailingComma else failNext .trailingCharacters
  | some _ => failNext .trailingCharacters
  | none => failNext .endInList

/-- Fields in order, of which some were read already. -/
def positional {ρ : Type} (s : Shape ρ) : List (Field ρ) → Nat → ρ → Reader ρ
  | [], _, record => do endOfList; pure record
  | f :: fs, count, record => do
    if ← hasItem (count == 0) then positional s fs (count + 1) (← f.read record)
    else
      skip
      if s.isOpen then pure record else fail (.wrongLength count s.titleWithLength)

def record {ρ : Type} (s : Shape ρ) : Reader ρ := do
  match ← valueStart with
  | '[' => skip; positional s s.fields 0 s.start
  | '\x7b' => skip; fields s (← budget) [] true s.start
  | _ => wrongType s.title

end Reader

/-- Reads a text that holds one value and nothing else. -/
def read {α : Type} (r : Reader α) (text : String) : Except Failure α :=
  let whole : Reader α := do
    let a ← r
    if (← Reader.peekSolid).isSome then Reader.failNext .trailingCharacters
    pure a
  (whole.run (Reader.start text)).map Prod.fst

end StyleModules.Json
