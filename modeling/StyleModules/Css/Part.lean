import StyleModules.Css.Color
import StyleModules.Css.Layout

/-!
# Parts of a free-form value

Values of custom properties, and values that do not fit the property they are given to, are kept as
lists of tokens.  Only addresses and colours are recognized in them.  A list is in normal form when
blanks stand only where two tokens need one.
-/

namespace StyleModules.Css

/-- A piece of a free-form value. -/
inductive Part where
  | token (t : Token)
  | address (text : String)
  | color (c : Color)
deriving DecidableEq, Inhabited, Repr

namespace Part

def lengthUnits : List String :=
  ["px", "in", "cm", "mm", "q", "pt", "pc", "em", "rem", "ex", "rex", "ch", "rch", "cap", "rcap",
   "ic", "ric", "lh", "rlh", "vw", "lvw", "svw", "dvw", "cqw", "vh", "lvh", "svh", "dvh", "cqh",
   "vi", "svi", "lvi", "dvi", "cqi", "vb", "svb", "lvb", "dvb", "cqb", "vmin", "svmin", "lvmin",
   "dvmin", "cqmin", "vmax", "svmax", "lvmax", "dvmax", "cqmax"]

def blank : Part := token (.whitespace " ")

def isBlank (p : Part) : Bool := p == blank

/-- Strings and addresses, the two kinds of parts that can refer to a file. -/
def mapReferences (onQuoted onAddress : String → String) : Part → Part
  | token (.quoted text) => token (.quoted (onQuoted text))
  | address text => address (onAddress text)
  | part => part

/-- A closing bracket needs no blank before a comma or another round bracket, nor at the end. -/
def closesTight : List Part → Bool
  | [] => true
  | token .comma :: _ => true
  | token (.closing .round) :: _ => true
  | _ => false

/-- Writes parts.  `spacedOut` tells that a blank was just written. -/
def writeFrom (layout : Layout) : Bool → List Part → String
  | _, [] => ""
  | spacedOut, part :: rest =>
    match part with
    | color c => c.text ++ writeFrom layout false rest
    | address text => layout.address text ++ writeFrom layout false rest
    | token (.delimiter c) =>
      let mark := String.singleton c
      if c == '+' || c == '-' then " " ++ mark ++ " " ++ writeFrom layout true rest
      else
        let front := if (c == '/' || c == '*') && !spacedOut then layout.blank else ""
        front ++ mark ++ layout.blank ++ writeFrom layout true rest
    | token .comma => layout.comma ++ writeFrom layout true rest
    | token (.closing b) =>
      let tight := layout.isCompact || closesTight rest
      String.singleton b.closing ++ (if tight then "" else " ") ++ writeFrom layout (!tight) rest
    | token (.number n) => writeNumeral n ++ writeFrom layout false rest
    | token (.dimension n unit) => writeDimension n unit ++ writeFrom layout false rest
    | token (.whitespace _) => " " ++ writeFrom layout true rest
    | token t => t.text ++ writeFrom layout false rest

/-- The text of a free-form value.  An empty one still needs a blank after the colon. -/
def write (layout : Layout) (parts : List Part) : String :=
  if parts.isEmpty && layout.isCompact then " " else writeFrom layout false parts

end Part

end StyleModules.Css
