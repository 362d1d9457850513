import StyleModules.Css.Node

/-!
# Tokens of a value

What stands in the value of a declaration, seen from the outside: brackets and function calls are
single tokens whatever they hold, whitespace and comments do not show.
-/

namespace StyleModules.Css

/-- A token of a declaration's value. -/
inductive ValueToken where
  /-- An identifier. -/
  | word (text : String)
  /-- A quoted string, without its quotes. -/
  | quoted (text : String)
  /-- The argument of `url()` without quotes. -/
  | address (text : String)
  /-- A function call, by name. -/
  | function (name : String)
  /-- Any other token, as it is written. -/
  | other (text : String)
deriving DecidableEq, Inhabited, Repr

namespace ValueToken

def ofToken : Token → ValueToken
  | .word text => word text
  | .quoted text => quoted text
  | .address text => address text
  | .function name => function name
  | token => other token.text

def tokenize (value : String) : List ValueToken :=
  ((Node.ofText value).filter (fun n ↦ !n.isBlank)).map (fun n ↦ ofToken n.token)

end ValueToken

end StyleModules.Css
