import StyleModules.Css.Token

/-!
# Layouts

A style sheet is written out for a reader or for a browser.  The two layouts differ in blanks, and
in a few places where a shorter spelling means the same.
-/

namespace StyleModules.Css

/-- How a style sheet is written. -/
inductive Layout where
  /-- With line breaks, indentation and blanks. -/
  | spaced
  /-- With as few characters as possible. -/
  | compact
deriving DecidableEq, Inhabited, Repr

namespace Layout

def isCompact (layout : Layout) : Bool := layout == compact

/-- A blank that only readers need. -/
def blank : Layout → String
  | spaced => " "
  | compact => ""

def comma (layout : Layout) : String := "," ++ layout.blank

/-- A character between two operands. -/
def between (layout : Layout) (c : String) : String := layout.blank ++ c ++ layout.blank

/-- What follows the name of a declaration. -/
def colon (layout : Layout) : String := ":" ++ layout.blank

def separated (separator : String) (pieces : List String) : String := separator.intercalate pieces

def list (layout : Layout) (pieces : List String) : String := separated layout.comma pieces

/-- A line break and the indentation of the next line. -/
def newline (layout : Layout) (indent : Nat) : String :=
  match layout with
  | spaced => "\n" ++ String.ofList (List.replicate (2 * indent) ' ')
  | compact => ""

def address (layout : Layout) (text : String) : String :=
  match layout with
  | spaced => "url(" ++ String.ofList (Escape.quoted text.toList) ++ ")"
  | compact => String.ofList (Escape.shortAddress text.toList)

end Layout

def writeIdentifier (name : String) : String := String.ofList (Escape.identifier name.toList)

def writeQuoted (text : String) : String := String.ofList (Escape.quoted text.toList)

/-- Numbers below one in a value go without the zero before the point. -/
def withoutLeadingZero : List Char → List Char
  | '0' :: '.' :: rest => '.' :: rest
  | '-' :: '0' :: '.' :: rest => '-' :: '.' :: rest
  | cs => cs

def writeNumeral (n : Numeral) : String := String.ofList (withoutLeadingZero n.chars)

def writeDimension (n : Numeral) (unit : String) : String :=
  writeNumeral n ++ String.ofList (Token.unitChars unit.toList)

end StyleModules.Css
