import StyleModules.Css.Condition
import StyleModules.Css.Selector
import StyleModules.Css.Value

/-!
# Rules

A style sheet is a list of rules, and some rules hold rules themselves.  A walk through the style
rules enters style rules and the conditional and grouping rules around them.  Starting styles and
scopes keep their rules to themselves.
-/

namespace StyleModules.Css

/-- A property with its value. -/
structure Declaration where
  name : String
  value : Value
deriving DecidableEq, Inhabited, Repr

/-- The declarations of a block.  Those marked as important come after all others. -/
structure Declarations where
  normal : List Declaration
  important : List Declaration
deriving DecidableEq, Inhabited, Repr

/-- An `@import` rule.  The outer option of the layer tells whether there is one, the inner one
whether it has a name. -/
structure Import where
  address : String
  layer : Option (Option String)
  supports : Option Condition
  media : List MediaQuery
deriving DecidableEq, Inhabited, Repr

/-- One step of an animation. -/
structure Frame where
  selectors : List String
  declarations : Declarations
deriving DecidableEq, Inhabited, Repr

/-- A rule that holds no rules. -/
inductive Statement where
  | imported (i : Import)
  | layers (names : List String)
  | names (initial : Option String) (address : String)
  | fontFace (properties : List Declaration)
  | page (selectors : String) (declarations : Declarations)
  | keyframes (keyword : String) (name : String) (frames : List Frame)
  | other (keyword : String) (prelude : List Part) (block : Option (List Part))
deriving DecidableEq, Inhabited, Repr

/-- What stands in front of a block of rules, with the declarations of a style rule. -/
inductive Head where
  | style (selectors : List Selector) (declarations : Declarations)
  | media (queries : List MediaQuery)
  | supports (condition : Condition)
  | layer (name : Option String)
  | container (name : Option String) (condition : Condition)
  | mozDocument
  | startingStyle
  | scopes (start stop : Option (List Selector))
deriving Inhabited, Repr

/-- A rule. -/
inductive Rule where
  | statement (s : Statement)
  | block (head : Head) (children : List Rule)
deriving Inhabited, Repr

namespace Declarations

def empty : Declarations := ⟨[], []⟩

/-- All declarations in the order they are written. -/
def all (d : Declarations) : List Declaration := d.normal ++ d.important

def isEmpty (d : Declarations) : Bool := d.normal.isEmpty && d.important.isEmpty

def map (f : Declaration → Declaration) (d : Declarations) : Declarations :=
  ⟨d.normal.map f, d.important.map f⟩

def filter (keep : Declaration → Bool) (d : Declarations) : Declarations :=
  ⟨d.normal.filter keep, d.important.filter keep⟩

end Declarations

namespace Declaration

def mapReferences (onQuoted onAddress : String → String) (d : Declaration) : Declaration :=
  { d with value := d.value.mapReferences onQuoted onAddress }

end Declaration

namespace Import

/-- Nothing but an address: no layer, no condition. -/
def isPlain (i : Import) : Bool := i.layer.isNone && i.supports.isNone && i.media.isEmpty

end Import

namespace Head

/-- A walk through style rules enters the block. -/
def isWalked : Head → Bool
  | startingStyle => false
  | scopes _ _ => false
  | _ => true

end Head

def Statement.mapReferences (onQuoted onAddress : String → String) : Statement → Statement
  | .fontFace properties =>
    .fontFace (properties.map (Declaration.mapReferences onQuoted onAddress))
  | .page selectors declarations =>
    .page selectors (declarations.map (Declaration.mapReferences onQuoted onAddress))
  | .keyframes keyword name frames =>
    .keyframes keyword name (frames.map (fun f ↦
      { f with declarations := f.declarations.map (Declaration.mapReferences onQuoted onAddress) }))
  | .other keyword prelude block =>
    .other keyword (prelude.map (Part.mapReferences onQuoted onAddress))
      (block.map (List.map (Part.mapReferences onQuoted onAddress)))
  | s => s

/-- Changes the references in the declarations of a head. -/
def Head.mapReferences (onQuoted onAddress : String → String) : Head → Head
  | .style selectors declarations =>
    .style selectors (declarations.map (Declaration.mapReferences onQuoted onAddress))
  | head => head

namespace Rule

def isImport : Rule → Bool
  | statement (.imported _) => true
  | _ => false

/-- A style rule as a walk sees it. -/
structure Style where
  selectors : List Selector
  declarations : Declarations
deriving Inhabited, Repr

mutual

/-- The style rules of a rule in document order, those inside it included. -/
def styles : Rule → List Style
  | .statement _ => []
  | .block (.style selectors declarations) children =>
    ⟨selectors, declarations⟩ :: stylesOfAll children
  | .block head children => if head.isWalked then stylesOfAll children else []

def stylesOfAll : List Rule → List Style
  | [] => []
  | r :: rs => r.styles ++ stylesOfAll rs

end

mutual

/-- Applies a function to every style rule that a walk meets. -/
def mapStyles (f : Style → Style) : Rule → Rule
  | .statement s => .statement s
  | .block (.style selectors declarations) children =>
    let style := f ⟨selectors, declarations⟩
    .block (.style style.selectors style.declarations) (mapStylesOfAll f children)
  | .block head children =>
    .block head (if head.isWalked then mapStylesOfAll f children else children)

/-- Applies a function to every style rule that a walk through some rules meets. -/
def mapStylesOfAll (f : Style → Style) : List Rule → List Rule
  | [] => []
  | r :: rs => r.mapStyles f :: mapStylesOfAll f rs

end

mutual

def retainInside (keep : Rule → Bool) : Rule → Rule
  | .statement s => .statement s
  | .block head children =>
    .block head (if head.isWalked then retain keep children else children)

/-- Removes every rule, at any depth, that does not satisfy a test.  Rules are tested after the
rules inside them were filtered, so a block that lost all its rules can go as well. -/
def retain (keep : Rule → Bool) : List Rule → List Rule
  | [] => []
  | r :: rs =>
    let filtered := r.retainInside keep
    if keep filtered then filtered :: retain keep rs else retain keep rs

end

mutual

/-- The rules that filtering tests, in the order of the tests: the inside of a rule before the
rules after it are filtered, and each list once all its insides are. -/
def testedInside (keep : Rule → Bool) : Rule → List Rule
  | .statement _ => []
  | .block head children => if head.isWalked then tested keep children else []

/-- What filtering tests in the rules inside some rules. -/
def testedInsides (keep : Rule → Bool) : List Rule → List Rule
  | [] => []
  | r :: rs => r.testedInside keep ++ testedInsides keep rs

/-- Every rule that filtering tests, as it is when it is tested. -/
def tested (keep : Rule → Bool) : List Rule → List Rule
  | [] => []
  | r :: rs =>
    (r.testedInside keep ++ testedInsides keep rs)
      ++ (r.retainInside keep :: rs.map (fun x ↦ x.retainInside keep))

end

mutual

/-- Changes every reference in a rule.  All blocks are entered. -/
def mapReferences (onQuoted onAddress : String → String) : Rule → Rule
  | .statement s => .statement (Statement.mapReferences onQuoted onAddress s)
  | .block head children =>
    .block (Head.mapReferences onQuoted onAddress head)
      (mapReferencesOfAll onQuoted onAddress children)

def mapReferencesOfAll (onQuoted onAddress : String → String) : List Rule → List Rule
  | [] => []
  | r :: rs => r.mapReferences onQuoted onAddress :: mapReferencesOfAll onQuoted onAddress rs

end

end Rule

end StyleModules.Css
