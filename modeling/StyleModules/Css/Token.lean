import StyleModules.Css.Escape
import StyleModules.Decimal

/-!
# Tokens

The words that the text of a style sheet is made of.
-/

namespace StyleModules.Css

/-- A number as it was written. -/
structure Numeral where
  negative : Bool
  /-- A sign was written in front. -/
  signed : Bool
  magnitude : Decimal
  /-- The value of a number written without point and exponent, kept within 32 bits. -/
  integer : Option Int
deriving DecidableEq, Inhabited, Repr

/-- The three kinds of brackets. -/
inductive Bracket where
  | round
  | square
  | curly
deriving DecidableEq, Inhabited, Repr

def Bracket.opening : Bracket → Char
  | round => '('
  | square => '['
  | curly => '\x7b'

def Bracket.closing : Bracket → Char
  | round => ')'
  | square => ']'
  | curly => '\x7d'

/-- A token of a style sheet.  Names and strings are kept without their escapes and quotes. -/
inductive Token where
  | word (name : String)
  | atKeyword (name : String)
  /-- A name after `#`; `isIdentifier` if it could stand alone. -/
  | hash (name : String) (isIdentifier : Bool)
  | quoted (text : String)
  | address (text : String)
  | delimiter (c : Char)
  | number (value : Numeral)
  | percentage (value : Numeral)
  | dimension (value : Numeral) (unit : String)
  | whitespace (text : String)
  | comment (text : String)
  | colon
  | semicolon
  | comma
  /-- An attribute operator of two characters: `=` after this one. -/
  | matching (c : Char)
  | commentOpen
  | commentClose
  /-- A name with an opening bracket right behind it. -/
  | function (name : String)
  | opening (b : Bracket)
  | closing (b : Bracket)
  | badAddress (text : String)
  | badQuoted (text : String)
deriving DecidableEq, Inhabited, Repr

namespace Numeral

/-- How many significant digits of a number are written. -/
def precision : Nat := 6

/-- The sign and digits of a number, without a sign when it is positive. -/
def chars (n : Numeral) : List Char :=
  let digits := (n.magnitude.cut precision).chars
  if n.negative then '-' :: digits else digits

/-- A number as a token of its own: a plus sign stays, and so does the mark that it was not written
as an integer. -/
def tokenChars (n : Numeral) : List Char :=
  let cut := n.magnitude.cut precision
  let plain := cut.isPositional && 0 ≤ cut.exponent
  (if n.signed && !n.negative then ['+'] else []) ++ n.chars
    ++ (if n.integer.isNone && n.magnitude.isWhole && plain then ['.', '0'] else [])

end Numeral

namespace Token

/-- The unit of a dimension, which must not read as the exponent of its number. -/
def unitChars : List Char → List Char
  | ['e'] => Escape.coded 'e'
  | 'e' :: '-' :: rest => Escape.coded 'e' ++ Escape.name ('-' :: rest)
  | unit => Escape.identifier unit

def chars : Token → List Char
  | word name => Escape.identifier name.toList
  | atKeyword name => '@' :: Escape.identifier name.toList
  | hash name true => '#' :: Escape.identifier name.toList
  | hash name false => '#' :: Escape.name name.toList
  | quoted text => Escape.quoted text.toList
  | address text => "url(".toList ++ Escape.address text.toList ++ [')']
  | delimiter c => [c]
  | number n => n.tokenChars
  | percentage n => n.tokenChars ++ ['%']
  | dimension n unit => n.tokenChars ++ unitChars unit.toList
  | whitespace text => text.toList
  | comment text => "/*".toList ++ text.toList ++ "*/".toList
  | colon => [':']
  | semicolon => [';']
  | comma => [',']
  | matching c => [c, '=']
  | commentOpen => "<!--".toList
  | commentClose => "-->".toList
  | function name => Escape.identifier name.toList ++ ['(']
  | opening b => [b.opening]
  | closing b => [b.closing]
  | badAddress text => "url(".toList ++ text.toList ++ [')']
  | badQuoted text => '"' :: text.toList.flatMap Escape.quotedChar

def text (t : Token) : String := String.ofList t.chars

/-- Whitespace and comments separate tokens and mean nothing else. -/
def isBlank : Token → Bool
  | whitespace _ => true
  | comment _ => true
  | _ => false

def opens? : Token → Option Bracket
  | function _ => some .round
  | opening b => some b
  | _ => none

def closes? : Token → Option Bracket
  | closing b => some b
  | _ => none

end Token

end StyleModules.Css
