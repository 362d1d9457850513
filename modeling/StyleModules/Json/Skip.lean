import StyleModules.Json.Reader

/-!
# Skipping values

A value that nobody asked for is gone past.  It must be well formed, but what its texts and numbers
say does not matter.
-/

namespace StyleModules.Json.Reader

def skipEscaped : Reader Unit := do
  match ← peek with
  | none => fail .endInText
  | some 'u' =>
    skip
    let _ ← codeUnit
  | some c => if (unescape? c).isSome then skip else failNext .badEscape

/-- Goes past the next character of a text; it was the end of the text. -/
def skipCharacter : Reader Bool := do
  match ← peek with
  | none => fail .endInText
  | some '"' => skip; pure true
  | some '\\' => skip; skipEscaped; pure false
  | some c => if c.toNat < 32 then fail .controlCharacter else skip; pure false

/-- Goes past the characters of a text, in at most so many steps. -/
def skipCharacters : Nat → Reader Unit
  | 0 => fail .endInText
  | steps + 1 => do if ← skipCharacter then pure () else skipCharacters steps

/-- Goes past a text behind its opening quotation mark. -/
def skipText : Reader Unit := do skipCharacters (← budget)

/-- Goes past digits; there were some. -/
def skipDigits : Reader Bool := do
  let count := ((← get).rest.takeWhile Char.isDigit).length
  skipMany count
  pure (count != 0)

def skipExponent : Reader Unit := do
  match ← peek with
  | some 'e' | some 'E' =>
    skip
    match ← peek with
    | some '+' | some '-' => skip
    | _ => pure ()
    if ← skipDigits then pure () else failNext .badNumber
  | _ => pure ()

/-- Goes past the digits behind a decimal point if there is one, and past an exponent. -/
def skipFraction : Reader Unit := do
  match ← peek with
  | some '.' =>
    skip
    if ← skipDigits then skipExponent else failNext .badNumber
  | _ => skipExponent

def skipNumber : Reader Unit := do
  match ← peek with
  | some '0' =>
    skip
    match ← peek with
    | some c => if c.isDigit then failNext .badNumber else skipFraction
    | none => pure ()
  | _ => if ← skipDigits then skipFraction else failNext .badNumber

def skipName : Reader Unit := do
  match ← peekSolid with
  | some '"' =>
    skip
    skipText
    match ← peekSolid with
    | some ':' => skip
    | some _ => failNext .expectedColon
    | none => failNext .endInObject
  | some _ => failNext .keyNotText
  | none => failNext .endInObject

mutual

/-- Goes past a value that is nested at most so deep. -/
def skipValue : Nat → Reader Unit
  | 0 => fail .endInValue
  | depth + 1 => do
    match ← valueStart with
    | 'n' => skip; word ['u', 'l', 'l']
    | 't' => skip; word ['r', 'u', 'e']
    | 'f' => skip; word ['a', 'l', 's', 'e']
    | '-' => skip; skipNumber
    | '"' => skip; skipText
    | '[' =>
      skip
      match ← peekSolid with
      | none => failNext .endInList
      | some ']' => skip
      | some _ => skipItems depth
    | '\x7b' =>
      skip
      match ← peekSolid with
      | none => failNext .endInObject
      | some '\x7d' => skip
      | some _ => skipFields depth
    | c => if c.isDigit then skipNumber else failNext .expectedValue

def skipItems : Nat → Reader Unit
  | 0 => fail .endInValue
  | depth + 1 => do
    skipValue depth
    match ← peekSolid with
    | none => failNext .endInList
    | some ',' => skip; skipItems depth
    | some ']' => skip
    | some _ => failNext .expectedListEnd

def skipFields : Nat → Reader Unit
  | 0 => fail .endInValue
  | depth + 1 => do
    skipName
    skipValue depth
    match ← peekSolid with
    | none => failNext .endInObject
    | some ',' => skip; skipFields depth
    | some '\x7d' => skip
    | some _ => failNext .expectedObjectEnd

end

def skipAny : Reader Unit := do skipValue (2 * (← budget))

end StyleModules.Json.Reader
