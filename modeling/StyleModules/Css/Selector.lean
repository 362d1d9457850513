import StyleModules.Css.Part

/-!
# Selectors

A selector is a list of components in the order they are written, combinators included.  The
classes of a selector are those it names itself and those inside `:not()`, `:is()`, `:where()` and
`:has()`, at any depth; classes that `::slotted()`, `:host()` and the `of` part of `:nth-child()`
look at belong elsewhere.
-/

namespace StyleModules.Css

/-- How two compound selectors are related. -/
inductive Combinator where
  | descendant
  | child
  | nextSibling
  | laterSibling
deriving DecidableEq, Inhabited, Repr

/-- Pseudo-classes with selectors inside. -/
inductive Logical where
  | negation
  | matchesAny
  | matchesAnyLightly
  | relative
deriving DecidableEq, Inhabited, Repr

/-- What an attribute is compared with; `flag` is the letter after the value, if any. -/
structure AttributeTest where
  operator : Option Char
  value : String
  flag : Option String
deriving DecidableEq, Inhabited, Repr

/-- Pseudo-elements and pseudo-classes that look at elements from another place. -/
inductive Outside where
  | slotted
  | host
deriving DecidableEq, Inhabited, Repr

/-- A piece of a selector. -/
inductive Component where
  | combinator (c : Combinator)
  | universal
  | nesting
  | element (name : String)
  | className (name : String)
  | id (name : String)
  | withAttribute (name : String) (test : Option AttributeTest)
  | pseudoClass (name : String)
  | pseudoClassCall (name : String) (arguments : List Part)
  | pseudoElement (name : String)
  | pseudoElementCall (name : String) (arguments : List Part)
  | nth (name : String) (formula : String) (among : List (List Component))
  | outside (kind : Outside) (inner : List Component)
  | logical (kind : Logical) (alternatives : List (List Component))
deriving Inhabited, Repr

/-- A selector: its components in the order they are written. -/
abbrev Selector := List Component

namespace Combinator

/-- The mark of a combinator; a descendant has none. -/
def mark? : Combinator → Option String
  | descendant => none
  | child => some ">"
  | nextSibling => some "+"
  | laterSibling => some "~"

def write (layout : Layout) (c : Combinator) : String :=
  match c.mark? with
  | none => " "
  | some m => layout.between m

end Combinator

namespace Logical

def name : Logical → String
  | negation => "not"
  | matchesAny => "is"
  | matchesAnyLightly => "where"
  | relative => "has"

end Logical

def Component.isCombinator : Component → Bool
  | .combinator _ => true
  | _ => false

mutual

/-- The local classes that a component names, with repetitions. -/
def Component.classes : Component → List String
  | .className name => [name]
  | .logical _ alternatives => Component.classesOfEach alternatives
  | _ => []

/-- The local classes of a selector, with repetitions.  A selector is matched from right to left: the
last compound comes first, and `compound` holds the classes of the one that is being read. -/
def Component.classesOfAll (compound : List String) : List Component → List String
  | [] => compound
  | c :: cs =>
    if c.isCombinator then Component.classesOfAll [] cs ++ compound
    else Component.classesOfAll (compound ++ c.classes) cs

/-- The local classes of several selectors, one selector after the other. -/
def Component.classesOfEach : List (List Component) → List String
  | [] => []
  | s :: ss => Component.classesOfAll [] s ++ Component.classesOfEach ss

end

mutual

def Component.mapClasses (f : String → String) : Component → Component
  | .className name => .className (f name)
  | .logical kind alternatives => .logical kind (Component.mapClassesOfEach f alternatives)
  | c => c

def Component.mapClassesOfAll (f : String → String) : List Component → List Component
  | [] => []
  | c :: cs => c.mapClasses f :: Component.mapClassesOfAll f cs

def Component.mapClassesOfEach (f : String → String) : List (List Component) → List (List Component)
  | [] => []
  | s :: ss => Component.mapClassesOfAll f s :: Component.mapClassesOfEach f ss

end

/-- The letter that follows an attribute's value. -/
def AttributeTest.writeFlag (t : AttributeTest) : String :=
  match t.flag with
  | none => ""
  | some flag => " " ++ flag

def AttributeTest.write (layout : Layout) (t : AttributeTest) : String :=
  let operator := (t.operator.map String.singleton).getD "" ++ "="
  let value := match layout with
    | .spaced => writeQuoted t.value
    | .compact => String.ofList (Escape.shortWord t.value.toList)
  operator ++ value ++ t.writeFlag

mutual

def Component.write (layout : Layout) : Component → String
  | .combinator c => c.write layout
  | .universal => "*"
  | .nesting => "&"
  | .element name => writeIdentifier name
  | .className name => "." ++ writeIdentifier name
  | .id name => "#" ++ writeIdentifier name
  | .withAttribute name test => "[" ++ writeIdentifier name
      ++ (test.map (AttributeTest.write layout)).getD "" ++ "]"
  | .pseudoClass name => ":" ++ writeIdentifier name
  | .pseudoClassCall name arguments =>
    ":" ++ writeIdentifier name ++ "(" ++ Part.writeFrom layout false arguments ++ ")"
  | .pseudoElement name => name
  | .pseudoElementCall name arguments =>
    "::" ++ writeIdentifier name ++ "(" ++ Part.writeFrom layout false arguments ++ ")"
  | .nth name formula among =>
    ":" ++ name ++ "(" ++ formula
      ++ (if among.isEmpty then "" else " of " ++ Component.writeEach layout among) ++ ")"
  | .outside .slotted inner => "::slotted(" ++ Component.writeAll layout inner ++ ")"
  | .outside .host [] => ":host"
  | .outside .host inner => ":host(" ++ Component.writeAll layout inner ++ ")"
  | .logical kind alternatives =>
    ":" ++ kind.name ++ "(" ++ Component.writeEach layout alternatives ++ ")"

def Component.writeAll (layout : Layout) : List Component → String
  | [] => ""
  | c :: cs => c.write layout ++ Component.writeAll layout cs

def Component.writeEach (layout : Layout) : List (List Component) → String
  | [] => ""
  | [s] => Component.writeAll layout s
  | s :: ss => Component.writeAll layout s ++ layout.comma ++ Component.writeEach layout ss

end

namespace Selector

def writeList (layout : Layout) (selectors : List Selector) : String :=
  Component.writeEach layout selectors

/-- The local classes of a selector list, each once, in the order they are first matched. -/
def localClasses (selectors : List Selector) : List String :=
  (Component.classesOfEach selectors).eraseDups

def mapClasses (f : String → String) (selectors : List Selector) : List Selector :=
  Component.mapClassesOfEach f selectors

/-- Two selector lists are the same when they are written the same. -/
def sameList (a b : List Selector) : Bool := writeList .compact a == writeList .compact b

end Selector

end StyleModules.Css
