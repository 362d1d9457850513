import StyleModules.Json.Failure

/-!
# Reading JSON

Readers take a value of a known kind off the front of a text.  A failure is placed where the text
stopped making sense: at the place reached, or one byte further when the next character is to
blame.
-/

namespace StyleModules.Json

/-- What is left of a text, and where that starts. -/
structure Cursor where
  rest : List Char
  place : Place
deriving Inhabited, Repr

/-- Takes something off the front of a text. -/
abbrev Reader := StateT Cursor (Except Failure)

namespace Reader

def start (text : String) : Cursor := ⟨text.toList, ⟨1, 0⟩⟩

def peek : Reader (Option Char) := fun c ↦ .ok (c.rest.head?, c)

def skip : Reader Unit := fun c ↦
  match c.rest with
  | [] => .ok ((), c)
  | x :: xs => .ok ((), ⟨xs, c.place.after x⟩)

def skipMany (n : Nat) : Reader Unit := fun c ↦
  .ok ((), ⟨c.rest.drop n, (c.rest.take n).foldl Place.after c.place⟩)

def fail {α : Type} (p : Problem) : Reader α := fun c ↦ .error ⟨p, c.place⟩

def failNext {α : Type} (p : Problem) : Reader α := fun c ↦
  .error ⟨p, Place.afterBytes 1 c.rest c.place⟩

/-- More steps than any loop over the rest of the text takes. -/
def budget : Reader Nat := fun c ↦ .ok (c.rest.length + 1, c)

def isBlank (c : Char) : Bool := c == ' ' || c == '\n' || c == '\t' || c == '\r'

def peekSolid : Reader (Option Char) := do
  skipMany ((← get).rest.takeWhile isBlank).length
  peek

/-- The first character of a value, which must be there. -/
def valueStart : Reader Char := do
  match ← peekSolid with
  | some c => pure c
  | none => failNext .endInValue

def word : List Char → Reader Unit
  | [] => pure ()
  | c :: cs => do
    match ← peek with
    | none => fail .endInValue
    | some x => if x = c then skip; word cs else failNext .expectedWord

def hexValue? (c : Char) : Option Nat :=
  if '0' ≤ c ∧ c ≤ '9' then some (c.toNat - '0'.toNat)
  else if 'a' ≤ c ∧ c ≤ 'f' then some (c.toNat - 'a'.toNat + 10)
  else if 'A' ≤ c ∧ c ≤ 'F' then some (c.toNat - 'A'.toNat + 10)
  else none

def hexNumber? : List Char → Option Nat
  | cs => cs.foldl (fun n c ↦ do some ((← n) * 16 + (← hexValue? c))) (some 0)

/-- The four hexadecimal digits of an escape.  Four bytes are looked at, whatever they are. -/
def codeUnit : Reader Nat := do
  let rest := (← get).rest
  if (rest.map Char.utf8Size).foldr (· + ·) 0 < 4 then
    skipMany rest.length
    fail .endInText
  else
    match hexNumber? (rest.take 4) with
    | some n => skipMany 4; pure n
    | none => fun c ↦ .error ⟨.badEscape, Place.afterBytes 4 rest c.place⟩

/-- A character that is escaped by a single letter. -/
def unescape? (c : Char) : Option Char :=
  if c = '"' ∨ c = '\\' ∨ c = '/' then some c
  else if c = 'b' then some (Char.ofNat 8)
  else if c = 'f' then some (Char.ofNat 12)
  else if c = 'n' then some '\n'
  else if c = 'r' then some '\r'
  else if c = 't' then some '\t'
  else none

/-- A character inside an escape that goes on after its first half. -/
def inEscape (c : Char) : Reader Unit := do
  match ← peek with
  | none => fail .endInText
  | some x => if x = c then skip else failNext .unfinishedEscape

/-- The code unit starts a pair. -/
def isLeading (n : Nat) : Bool := 0xD800 ≤ n && n ≤ 0xDBFF

/-- The code unit ends a pair. -/
def isTrailing (n : Nat) : Bool := 0xDC00 ≤ n && n ≤ 0xDFFF

def codedCharacter : Reader Char := do
  let first ← codeUnit
  if isTrailing first then fail .loneSurrogate
  else if isLeading first then
    inEscape '\\'
    inEscape 'u'
    let second ← codeUnit
    if isTrailing second then
      pure (Char.ofNat ((first - 0xD800) * 0x400 + (second - 0xDC00) + 0x10000))
    else fail .loneSurrogate
  else pure (Char.ofNat first)

def escaped : Reader Char := do
  match ← peek with
  | none => fail .endInText
  | some 'u' => skip; codedCharacter
  | some c =>
    match unescape? c with
    | some x => skip; pure x
    | none => failNext .badEscape

/-- The next character of a text, none at its end. -/
def character? : Reader (Option Char) := do
  match ← peek with
  | none => fail .endInText
  | some '"' => skip; pure none
  | some '\\' => skip; some <$> escaped
  | some c => if c.toNat < 32 then failNext .controlCharacter else skip; pure (some c)

/-- The characters of a text, in at most so many steps. -/
def characters : Nat → List Char → Reader (List Char)
  | 0, _ => fail .endInText
  | steps + 1, before => do
    match ← character? with
    | none => pure before.reverse
    | some c => characters steps (c :: before)

def textRest : Reader String := do
  String.ofList <$> characters (← budget) []

end Reader

end StyleModules.Json
