import StyleModules.Css.Token
import StyleModules.Decimal.Precision

/-!
# Lexing

The text of a style sheet is cut into tokens from left to right, and every character belongs to
exactly one of them.  A reader of one token answers with the token and the number of characters it
takes; a character that cannot start anything longer is a delimiter, so there is always one.
-/

namespace StyleModules.Css

/-- A place in a text: lines count from zero, columns from one in UTF-16 units. -/
structure Position where
  line : Nat
  column : Nat
deriving DecidableEq, Inhabited, Repr

/-- A token and where it starts. -/
structure Lexeme where
  token : Token
  start : Position
deriving DecidableEq, Inhabited, Repr

namespace Position

def start : Position := ⟨0, 1⟩

/-- The place after a character; a carriage return before a line feed does not end a line. -/
def after (p : Position) (c : Char) (next : List Char) : Position :=
  if c == '\n' || c == '\x0c' || (c == '\r' && next.head? != some '\n') then ⟨p.line + 1, 1⟩
  else ⟨p.line, p.column + (if c.toNat < 0x10000 then 1 else 2)⟩

end Position

namespace Lexer

def isNewline (c : Char) : Bool := c == '\n' || c == '\r' || c == '\x0c'

def isSpace (c : Char) : Bool := c == ' ' || c == '\t' || isNewline c

def isHexDigit (c : Char) : Bool :=
  c.isDigit || ('a' ≤ c && c ≤ 'f') || ('A' ≤ c && c ≤ 'F')

def hexValue (c : Char) : Nat :=
  if c.isDigit then c.toNat - '0'.toNat
  else if c.isLower then c.toNat - 'a'.toNat + 10
  else c.toNat - 'A'.toNat + 10

def atNewline (cs : List Char) : Bool := cs.head?.any isNewline

/-- How many characters the line break at the start takes. -/
def newlineLength : List Char → Nat
  | '\r' :: '\n' :: _ => 2
  | _ => 1

/-- A letter, an underscore, a null or any character beyond ASCII. -/
def isNameStart (c : Char) : Bool :=
  c.isAlpha || c == '_' || c.toNat == 0 || 128 ≤ c.toNat

def startsIdentifier : List Char → Bool
  | [] => false
  | '-' :: rest =>
    match rest with
    | [] => false
    | c :: _ => isNameStart c || c == '-' || c == '\\'
  | '\\' :: rest => !atNewline rest
  | c :: _ => isNameStart c

/-! ## Names and strings -/

/-- The character with a given code, if there is one that text can hold. -/
def charOfCode (code : Nat) : Char :=
  if code = 0 ∨ 0x10FFFF < code ∨ (0xD800 ≤ code ∧ code ≤ 0xDFFF) then Escape.replacement
  else Char.ofNat code

/-- Reads what follows a backslash: up to six hexadecimal digits and one space after them, or any
other character as it is. -/
def escape : List Char → Char × Nat
  | [] => (Escape.replacement, 0)
  | c :: cs =>
    if isHexDigit c then
      let digits := ((c :: cs).take 6).takeWhile isHexDigit
      let rest := (c :: cs).drop digits.length
      let space := if rest.head?.any isSpace then newlineLength rest else 0
      (charOfCode (digits.foldl (fun n d ↦ n * 16 + hexValue d) 0), digits.length + space)
    else (if c.toNat = 0 then Escape.replacement else c, 1)

/-- What was read, how many characters it took, and whether it ended as it should. -/
structure Reading where
  chars : List Char
  used : Nat
  complete : Bool

namespace Reading

def done : Reading := ⟨[], 0, true⟩

def broken : Reading := ⟨[], 0, false⟩

def skipped (r : Reading) : Reading := { r with used := r.used + 1 }

/-- One more character was passed, and it means `c`. -/
def push (c : Char) (r : Reading) : Reading := { r with chars := c :: r.chars, used := r.used + 1 }

end Reading

/-- Reads a name, after passing over `skip` characters. -/
def name : Nat → List Char → Reading
  | _, [] => .done
  | skip + 1, _ :: cs => (name skip cs).skipped
  | 0, c :: cs =>
    if Escape.isNameChar c then (name 0 cs).push c
    else if c.toNat = 0 then (name 0 cs).push Escape.replacement
    else if c == '\\' && !atNewline cs then
      let (e, n) := escape cs
      (name n cs).push e
    else .done

/-- Reads a string up to its closing quote.  A line break that is not escaped ends it badly, the
end of the text ends it well. -/
def string (quote : Char) : Nat → List Char → Reading
  | _, [] => .done
  | skip + 1, _ :: cs => (string quote skip cs).skipped
  | 0, c :: cs =>
    if c == quote then Reading.done.skipped
    else if isNewline c then .broken
    else if c == '\\' then
      if cs.isEmpty then Reading.done.skipped
      else if atNewline cs then (string quote (newlineLength cs) cs).skipped
      else
        let (e, n) := escape cs
        (string quote n cs).push e
    else (string quote 0 cs).push (if c.toNat = 0 then Escape.replacement else c)

/-- The number of characters of a comment's text, and those of its end mark. -/
def commentLength : List Char → Nat × Nat
  | [] => (0, 0)
  | '*' :: '/' :: _ => (0, 2)
  | _ :: cs => let (n, mark) := commentLength cs; (n + 1, mark)

/-- The characters of an address without quotes that cannot be read, and those of its end mark:
everything up to a closing bracket that is not escaped. -/
def badAddressLength : List Char → Nat × Nat
  | [] => (0, 0)
  | ')' :: _ => (0, 1)
  | '\\' :: c :: cs =>
    let (n, mark) := badAddressLength cs
    if c == ')' || c == '\\' then (n + 2, mark) else
      let (n, mark) := badAddressLength (c :: cs)
      (n + 1, mark)
  | _ :: cs => let (n, mark) := badAddressLength cs; (n + 1, mark)

/-- Characters that may not stand in an address without quotes. -/
def breaksAddress (c : Char) : Bool :=
  (Escape.isControl c && c.toNat ≠ 0) || c == '"' || c == '\'' || c == '('

/-- What stands after the spaces at the end of an address. -/
def addressEnd (cs : List Char) : Reading :=
  let spaces := (cs.takeWhile isSpace).length
  match cs.drop spaces with
  | [] => ⟨[], spaces, true⟩
  | ')' :: _ => ⟨[], spaces + 1, true⟩
  | _ => .broken

/-- Reads an address without quotes up to its closing bracket. -/
def address : Nat → List Char → Reading
  | _, [] => .done
  | skip + 1, _ :: cs => (address skip cs).skipped
  | 0, c :: cs =>
    if c == ')' then Reading.done.skipped
    else if isSpace c then addressEnd (c :: cs)
    else if breaksAddress c then .broken
    else if c == '\\' then
      if atNewline cs then .broken
      else
        let (e, n) := escape cs
        (address n cs).push e
    else (address 0 cs).push (if c.toNat = 0 then Escape.replacement else c)

/-- The token after `url(`, unless a quoted string follows. -/
def addressToken? (cs : List Char) : Option (Token × Nat) :=
  let spaces := (cs.takeWhile isSpace).length
  let rest := cs.drop spaces
  if rest.head? == some '"' || rest.head? == some '\'' then none
  else
    let r := address 0 rest
    if r.complete then some (.address (String.ofList r.chars), spaces + r.used)
    else
      let (n, mark) := badAddressLength rest
      some (.badAddress (String.ofList (rest.take n)), spaces + n + mark)

/-! ## Numbers -/

def digitsValue (cs : List Char) : Nat :=
  cs.foldl (fun n d ↦ n * 10 + (d.toNat - '0'.toNat)) 0

/-- The characters of a fraction: a point and at least one digit. -/
def fraction : List Char → List Char
  | '.' :: cs => cs.takeWhile Char.isDigit
  | _ => []

/-- The value and length of an exponent, which has at least one digit. -/
def exponent : List Char → Int × Nat
  | e :: cs =>
    if e == 'e' || e == 'E' then
      let (negative, signs) := match cs with
        | '-' :: _ => (true, 1)
        | '+' :: _ => (false, 1)
        | _ => (false, 0)
      let digits := (cs.drop signs).takeWhile Char.isDigit
      if digits.isEmpty then (0, 0)
      else
        let value : Int := digitsValue digits
        (if negative then -value else value, 1 + signs + digits.length)
    else (0, 0)
  | [] => (0, 0)

/-- The nearest integer of 32 bits. -/
def clamp (n : Int) : Int := max (-2147483648) (min n 2147483647)

def numeral (cs : List Char) : Numeral × Nat :=
  let negative := cs.head? == some '-'
  let signed := negative || cs.head? == some '+'
  let signs := if signed then 1 else 0
  let whole := (cs.drop signs).takeWhile Char.isDigit
  let rest := cs.drop (signs + whole.length)
  let decimals := fraction rest
  let point := if decimals.isEmpty then 0 else 1
  let (power, powerLength) := exponent (rest.drop (point + decimals.length))
  let digits := digitsValue (whole ++ decimals)
  let isInteger := decimals.isEmpty && powerLength == 0
  let value : Int := if negative then -(digits : Int) else digits
  (⟨negative, signed, Precision.single.narrow ⟨digits, power - decimals.length⟩,
    if isInteger then some (clamp value) else none⟩,
   signs + whole.length + point + decimals.length + powerLength)

/-- A number, with a percent sign or a unit if one follows. -/
def numericToken (cs : List Char) : Token × Nat :=
  let (n, used) := numeral cs
  let rest := cs.drop used
  if rest.head? == some '%' then (.percentage n, used + 1)
  else if startsIdentifier rest then
    let r := name 0 rest
    (.dimension n (String.ofList r.chars), used + r.used)
  else (.number n, used)

/-- A number starts here, a sign or a point included. -/
def startsNumber : List Char → Bool
  | [] => false
  | c :: cs =>
    let digitOrPoint : List Char → Bool
      | '.' :: d :: _ => d.isDigit
      | d :: _ => d.isDigit
      | [] => false
    if c == '+' || c == '-' then digitOrPoint cs else digitOrPoint (c :: cs)

/-! ## Tokens -/

/-- A name and what its following bracket makes of it. -/
def wordToken (cs : List Char) : Token × Nat :=
  let r := name 0 cs
  let text := String.ofList r.chars
  match cs.drop r.used with
  | '(' :: rest =>
    if r.chars.map Char.toLower = "url".toList then
      match addressToken? rest with
      | some (token, used) => (token, r.used + 1 + used)
      | none => (.function text, r.used + 1)
    else (.function text, r.used + 1)
  | _ => (.word text, r.used)

/-- A name after `#`; only one that could not stand alone is marked. -/
def hashToken (cs : List Char) : Token × Nat :=
  let r := name 0 cs
  if startsIdentifier cs then (.hash (String.ofList r.chars) true, r.used + 1)
  else if cs.head?.any (fun c ↦ c.isDigit || c == '-') then
    (.hash (String.ofList r.chars) false, r.used + 1)
  else (.delimiter '#', 1)

def atToken (cs : List Char) : Token × Nat :=
  if startsIdentifier cs then
    let r := name 0 cs
    (.atKeyword (String.ofList r.chars), r.used + 1)
  else (.delimiter '@', 1)

def quotedToken (quote : Char) (cs : List Char) : Token × Nat :=
  let r := string quote 0 cs
  let text := String.ofList r.chars
  (if r.complete then .quoted text else .badQuoted text, r.used + 1)

/-- A character that stands for itself, unless an equals sign makes it an attribute operator. -/
def operatorToken (c : Char) (cs : List Char) : Token × Nat :=
  if cs.head? == some '=' then (.matching c, 2) else (.delimiter c, 1)

/-- The token at the start of a text and its length. -/
def next (c : Char) (cs : List Char) : Token × Nat :=
  if isSpace c then
    let run := (c :: cs).takeWhile isSpace
    (.whitespace (String.ofList run), run.length)
  else if c == '"' || c == '\'' then quotedToken c cs
  else if c == '#' then hashToken cs
  else if c == '@' then atToken cs
  else if c == '(' then (.opening .round, 1)
  else if c == ')' then (.closing .round, 1)
  else if c == '[' then (.opening .square, 1)
  else if c == ']' then (.closing .square, 1)
  else if c == '\x7b' then (.opening .curly, 1)
  else if c == '\x7d' then (.closing .curly, 1)
  else if c == ',' then (.comma, 1)
  else if c == ':' then (.colon, 1)
  else if c == ';' then (.semicolon, 1)
  else if startsNumber (c :: cs) then numericToken (c :: cs)
  else if c == '/' && cs.head? == some '*' then
    let text := cs.drop 1
    let (n, mark) := commentLength text
    (.comment (String.ofList (text.take n)), 2 + n + mark)
  else if c == '-' && cs.take 2 = ['-', '>'] then (.commentClose, 3)
  else if c == '<' && cs.take 3 = ['!', '-', '-'] then (.commentOpen, 4)
  else if c == '~' || c == '|' || c == '^' || c == '$' || c == '*' then operatorToken c cs
  else if startsIdentifier (c :: cs) then wordToken (c :: cs)
  else (.delimiter c, 1)

/-- All tokens of a text, the first `skip` characters of which belong to the token before. -/
def tokens : Nat → Position → List Char → List Lexeme
  | _, _, [] => []
  | skip + 1, p, c :: cs => tokens skip (p.after c cs) cs
  | 0, p, c :: cs =>
    let (token, used) := next c cs
    ⟨token, p⟩ :: tokens (used - 1) (p.after c cs) cs

def endPosition : Position → List Char → Position
  | p, [] => p
  | p, c :: cs => endPosition (p.after c cs) cs

end Lexer

def lex (text : String) : List Lexeme := Lexer.tokens 0 .start text.toList

end StyleModules.Css
