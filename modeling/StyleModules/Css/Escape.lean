/-!
# Escaping

How names, strings and addresses are written in a style sheet so that reading them back gives the
same text.  A control character is written as its code in hexadecimal digits and a space, any
other character that would end or change the word is written after a backslash.
-/

namespace StyleModules.Css.Escape

/-- The replacement character, which stands for a missing or impossible one. -/
def replacement : Char := Char.ofNat 0xFFFD

/-- A digit, an ASCII letter, an underscore, a hyphen or any character beyond ASCII. -/
def isNameChar (c : Char) : Bool :=
  c.isAlphanum || c == '_' || c == '-' || 128 ≤ c.toNat

def isControl (c : Char) : Bool := c.toNat < 32 || c.toNat == 127

def coded (c : Char) : List Char :=
  '\\' :: Nat.toDigits 16 c.toNat ++ [' ']

def nameChar (c : Char) : List Char :=
  if isNameChar c then [c]
  else if c.toNat = 0 then [replacement]
  else if isControl c then coded c
  else ['\\', c]

/-- A name, which may start with any character. -/
def name (cs : List Char) : List Char := cs.flatMap nameChar

/-- The part of an identifier after an initial hyphen: a leading digit is written as its code. -/
def afterHyphen : List Char → List Char
  | [] => []
  | c :: cs => if c.isDigit then coded c ++ name cs else name (c :: cs)

def identifier : List Char → List Char
  | '-' :: '-' :: cs => '-' :: '-' :: name cs
  | ['-'] => ['\\', '-']
  | '-' :: cs => '-' :: afterHyphen cs
  | cs => afterHyphen cs

def quotedChar (c : Char) : List Char :=
  if c == '"' || c == '\\' then ['\\', c]
  else if c.toNat = 0 then [replacement]
  else if isControl c then coded c
  else [c]

def quoted (cs : List Char) : List Char := '"' :: cs.flatMap quotedChar ++ ['"']

def addressChar (c : Char) : List Char :=
  if isControl c || c == ' ' then coded c
  else if c == '(' || c == ')' || c == '"' || c == '\'' || c == '\\' then ['\\', c]
  else [c]

def address (cs : List Char) : List Char := cs.flatMap addressChar

def byteCount (cs : List Char) : Nat := (cs.map Char.utf8Size).foldr (· + ·) 0

/-- The shorter way to write an address: without quotes, unless escapes make that longer. -/
def shortAddress (cs : List Char) : List Char :=
  let plain := "url(".toList ++ address cs ++ [')']
  if byteCount cs + 7 < byteCount plain ∧ byteCount (quoted cs) + 5 < byteCount plain then
    "url(".toList ++ quoted cs ++ [')']
  else plain

/-- The shorter way to write an attribute's value: as an identifier, unless that is longer. -/
def shortWord (cs : List Char) : List Char :=
  if cs ≠ [] ∧ byteCount (identifier cs) < byteCount (quoted cs) then identifier cs else quoted cs

end StyleModules.Css.Escape
