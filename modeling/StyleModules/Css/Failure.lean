import StyleModules.Css.Lexer
import StyleModules.Text.Quoted

/-!
# Parse failures

Why and where a text is not a style sheet, and how that is told.  The text of a failure names the
offending token by its kind and contents.
-/

namespace StyleModules.Css

/-- What is wrong with a text. -/
inductive Cause where
  | unexpectedToken (token : Token)
  | endOfInput
  | emptySelector
  | danglingCombinator
  | classNeedsName (token : Token)
  | attributeNeedsName (token : Token)
  | attributeOperator (token : Token)
  | attributeValue (token : Token)
  | pseudoNeedsName (token : Token)
  | afterPseudoElement (token : Token)
  | invalidSelectorState
  | misplacedImport
  | misplacedNamespace
  | invalidAtRuleBody
  | invalidMediaQuery
  | invalidDeclaration
deriving DecidableEq, Inhabited, Repr

/-- A cause and where it shows. -/
structure Failure where
  cause : Cause
  position : Position
deriving DecidableEq, Inhabited, Repr

def describeSingle (c : Char) : String :=
  if c == '\'' then "'\\''"
  else if c == '"' then "'\"'"
  else String.ofList ('\'' :: Text.quoteChar c ++ ['\''])

def describeBool (b : Bool) : String := if b then "true" else "false"

/-- All digits of a number, with a point in any case. -/
def describeNumber (n : Numeral) : String :=
  (if n.negative then "-" else "") ++ String.ofList n.magnitude.pointed

def describeInteger (n : Numeral) : String :=
  match n.integer with
  | none => "None"
  | some i => "Some(" ++ String.ofList (Decimal.signed i) ++ ")"

def describeFields (name : String) (fields : List (String × String)) : String :=
  name ++ " \x7b " ++ joined (fields.map (fun f ↦ f.1 ++ ": " ++ f.2)) ++ " \x7d"
where
  /-- Fields with commas between them. -/
  joined (fields : List String) : String := ", ".intercalate fields

def Bracket.describe : Bracket → String
  | round => "Parenthesis"
  | square => "SquareBracket"
  | curly => "CurlyBracket"

def Token.describe : Token → String
  | word name => "Ident(" ++ Text.quote name ++ ")"
  | atKeyword name => "AtKeyword(" ++ Text.quote name ++ ")"
  | hash name true => "IDHash(" ++ Text.quote name ++ ")"
  | hash name false => "Hash(" ++ Text.quote name ++ ")"
  | quoted text => "String(" ++ Text.quote text ++ ")"
  | address text => "UnquotedUrl(" ++ Text.quote text ++ ")"
  | delimiter c => "Delim(" ++ describeSingle c ++ ")"
  | number n => describeFields "Number"
      [("has_sign", describeBool n.signed), ("value", describeNumber n),
       ("int_value", describeInteger n)]
  | percentage n => describeFields "Percentage"
      [("has_sign", describeBool n.signed),
       ("unit_value", describeNumber { n with magnitude := hundredth n.magnitude }),
       ("int_value", describeInteger n)]
  | dimension n unit => describeFields "Dimension"
      [("has_sign", describeBool n.signed), ("value", describeNumber n),
       ("int_value", describeInteger n), ("unit", Text.quote unit)]
  | whitespace text => "WhiteSpace(" ++ Text.quote text ++ ")"
  | comment text => "Comment(" ++ Text.quote text ++ ")"
  | colon => "Colon"
  | semicolon => "Semicolon"
  | comma => "Comma"
  | matching c =>
    if c == '~' then "IncludeMatch"
    else if c == '|' then "DashMatch"
    else if c == '^' then "PrefixMatch"
    else if c == '$' then "SuffixMatch"
    else "SubstringMatch"
  | commentOpen => "CDO"
  | commentClose => "CDC"
  | function name => "Function(" ++ Text.quote name ++ ")"
  | opening b => b.describe ++ "Block"
  | closing b => "Close" ++ b.describe
  | badAddress text => "BadUrl(" ++ Text.quote text ++ ")"
  | badQuoted text => "BadString(" ++ Text.quote text ++ ")"
where
  /-- A percentage as a fraction of one. -/
  hundredth (d : Decimal) : Decimal := if d.digits = 0 then d else ⟨d.digits, d.exponent - 2⟩

namespace Cause

def message : Cause → String
  | unexpectedToken token => "Unexpected token " ++ token.describe
  | endOfInput => "Unexpected end of input"
  | emptySelector => "Invalid empty selector"
  | danglingCombinator => "Invalid dangling combinator in selector"
  | classNeedsName token => "Expected identifier in class selector, got " ++ token.describe
  | attributeNeedsName token =>
    "No qualified name in attribute selector: " ++ token.describe ++ "."
  | attributeOperator token =>
    "Unexpected token in attribute selector: " ++ token.describe
  | attributeValue token => "Invalid value in attribute selector: " ++ token.describe
  | pseudoNeedsName token => "Invalid token in pseudo element: " ++ token.describe
  | afterPseudoElement token =>
    "Pseudo-elements like '::before' or '::after' can't be followed by selectors like '"
      ++ token.describe ++ "'"
  | invalidSelectorState => "Invalid state"
  | misplacedImport =>
    "@import rules must precede all rules aside from @charset and @layer statements"
  | misplacedNamespace =>
    "@namespace rules must precede all rules aside from @charset, @import, and @layer statements"
  | invalidAtRuleBody => "Invalid @ rule body"
  | invalidMediaQuery => "Invalid media query"
  | invalidDeclaration => "Invalid declaration"

end Cause

namespace Failure

def message (f : Failure) (file : String) : String :=
  f.cause.message ++ " at " ++ file ++ ":" ++ toString f.position.line ++ ":"
    ++ toString f.position.column

end Failure

end StyleModules.Css
