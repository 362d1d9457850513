import StyleModules.Css.ValueToken
import StyleModules.Stylesheet

/-!
# Composition of classes

A `composes` declaration makes the classes of its rule stand for further classes: of the same
file, of another file, or as they are.  These declarations are meant for the compiler, and are
taken out of the stylesheet.
-/

namespace StyleModules

/-- Where composed classes come from. -/
inductive ClassSource where
  /-- The file that composes them. -/
  | here
  /-- No file: the names are used as they are written. -/
  | everywhere
  /-- The file that a reference names. -/
  | file (reference : String)
deriving DecidableEq, Inhabited, Repr

/-- What the value of a `composes` declaration says. -/
structure ComposedNames where
  names : List String
  source : ClassSource
deriving DecidableEq, Inhabited, Repr

/-- A `composes` declaration with the classes of its rule. -/
structure Composes where
  targets : List String
  composed : ComposedNames
deriving DecidableEq, Inhabited, Repr

namespace ComposedNames

/-- The source that stands behind the word `from`. -/
def source? : List Css.ValueToken → Option ClassSource
  | [.word "global"] => some .everywhere
  | [.quoted reference] => some (.file reference)
  | _ => none

/-- Reads names up to an optional source. -/
def ofTokens? : List Css.ValueToken → Option ComposedNames
  | [] => some ⟨[], .here⟩
  | .word "from" :: rest => (source? rest).map (fun s ↦ ⟨[], s⟩)
  | .word name :: rest => (ofTokens? rest).map (fun c ↦ { c with names := name :: c.names })
  | _ => none

/-- Reads the value of a declaration; there must be at least one name. -/
def read? (value : String) : Option ComposedNames :=
  (ofTokens? (Css.ValueToken.tokenize value)).filter (fun c ↦ !c.names.isEmpty)

end ComposedNames

namespace Composes

/-- The property that composes classes, in any letter case. -/
def propertyName : String := "composes"

def isComposes (d : Css.Declaration) : Bool := d.name.toLower == propertyName

def valueText (d : Css.Declaration) : String := d.value.write .spaced 0

/-- What a declaration composes, or its value if that cannot be understood. -/
def ofDeclaration (targets : List String) (d : Css.Declaration) : Except String Composes :=
  match ComposedNames.read? (valueText d) with
  | some composed => if targets.isEmpty then .error (valueText d) else .ok ⟨targets, composed⟩
  | none => .error (valueText d)

def ofStyle (s : Css.Rule.Style) : List (Except String Composes) :=
  (s.declarations.all.filter isComposes).map
    (ofDeclaration (Css.Selector.localClasses s.selectors))

def strip (s : Css.Rule.Style) : Css.Rule.Style :=
  { s with declarations := s.declarations.filter (fun d ↦ !isComposes d) }

end Composes

namespace Stylesheet

/-- The `composes` declarations of a stylesheet in document order. -/
def composes (s : Stylesheet) : List (Except String Composes) := s.styles.flatMap Composes.ofStyle

/-- The stylesheet without its `composes` declarations. -/
def withoutComposes (s : Stylesheet) : Stylesheet :=
  s.mapChunks (StyleChunk.mapRules (Css.Rule.mapStylesOfAll Composes.strip))

end Stylesheet

end StyleModules
