import StyleModules.Css.Rule

/-!
# Writing rules

Spaced out, every declaration has a line and an empty line stands between two rules, except between
statements without a block.  A block of rules that holds none still takes a line for them.
-/

namespace StyleModules.Css

def importantMark (layout : Layout) : String := layout.blank ++ "!important"

def Declaration.write (layout : Layout) (indent : Nat) (important : Bool) (d : Declaration) :
    String :=
  writeIdentifier d.name ++ layout.colon ++ d.value.write layout indent
    ++ (if important then importantMark layout else "")

def Declarations.pieces (layout : Layout) (indent : Nat) (d : Declarations) : List String :=
  d.normal.map (Declaration.write layout indent false)
    ++ d.important.map (Declaration.write layout indent true)

/-- Lines that each end in a semicolon, which the last one only needs if something follows. -/
def writeLines (layout : Layout) (indent : Nat) (more : Bool) : List String → String
  | [] => ""
  | [line] =>
    layout.newline indent ++ line ++ (if layout.isCompact && !more then "" else ";")
  | line :: lines => layout.newline indent ++ line ++ ";" ++ writeLines layout indent more lines

def writeBlock (layout : Layout) (indent : Nat) (front : String) (lines : List String) : String :=
  front ++ layout.blank ++ "\x7b" ++ writeLines layout (indent + 1) false lines
    ++ layout.newline indent ++ "\x7d"

/-- The step of an animation at its shortest. -/
def Frame.writeSelector (layout : Layout) (selector : String) : String :=
  if layout.isCompact then
    if selector = "from" then "0%" else if selector = "100%" then "to" else selector
  else selector

def Frame.write (layout : Layout) (indent : Nat) (f : Frame) : String :=
  writeBlock layout indent (layout.list (f.selectors.map (Frame.writeSelector layout)))
    (f.declarations.pieces layout (indent + 1))

/-- The steps of an animation with empty lines between them. -/
def Frame.writeAll (layout : Layout) (indent : Nat) (frames : List Frame) : String :=
  (layout.newline 0).intercalate
    (frames.map (fun f ↦ layout.newline indent ++ f.write layout indent))

def Import.writeLayer : Option (Option String) → String
  | none => ""
  | some none => " layer"
  | some (some name) => " layer(" ++ name ++ ")"

/-- An import without its semicolon. -/
def Import.write (layout : Layout) (i : Import) : String :=
  "@import " ++ writeQuoted i.address ++ Import.writeLayer i.layer
    ++ ((i.supports.map (fun c ↦ " supports(" ++ c.write layout ++ ")")).getD "")
    ++ (if i.media.isEmpty then "" else " " ++ MediaQuery.writeList layout i.media)

namespace Statement

/-- A text in front of another one, with a blank if there is any. -/
def spacedFront (text : String) : String := if text.isEmpty then "" else " " ++ text

def write (layout : Layout) (indent : Nat) : Statement → String
  | imported i => i.write layout ++ ";"
  | layers list => "@layer " ++ layout.list list ++ ";"
  | names initial address =>
    "@namespace " ++ ((initial.map (fun n ↦ writeIdentifier n ++ " ")).getD "")
      ++ writeQuoted address ++ ";"
  | fontFace properties =>
    writeBlock layout indent "@font-face"
      (properties.map (Declaration.write layout (indent + 1) false))
  | page selectors declarations =>
    writeBlock layout indent ("@page" ++ spacedFront selectors)
      (declarations.pieces layout (indent + 1))
  | keyframes keyword name frames =>
    "@" ++ keyword ++ " " ++ writeIdentifier name ++ layout.blank ++ "\x7b"
      ++ Frame.writeAll layout (indent + 1) frames ++ layout.newline indent ++ "\x7d"
  | other keyword prelude block =>
    "@" ++ keyword ++ spacedFront (Part.writeFrom layout false prelude)
      ++ (match block with
        | none => ";"
        | some parts => layout.blank ++ "\x7b" ++ layout.newline (indent + 1)
            ++ Part.writeFrom layout false parts ++ layout.newline indent ++ "\x7d")

/-- Statements that stand close together. -/
def isClose : Statement → Bool
  | imported _ => true
  | layers _ => true
  | names _ _ => true
  | _ => false

end Statement

namespace Head

def writeScope (layout : Layout) (selectors : List Selector) : String :=
  "(" ++ Selector.writeList layout selectors ++ ")"

/-- What is written in front of a block, blanks before the bracket included. -/
def front (layout : Layout) : Head → String
  | style selectors _ => Selector.writeList layout selectors ++ layout.blank
  | media queries => "@media " ++ MediaQuery.writeList layout queries ++ layout.blank
  | supports condition => "@supports " ++ condition.write layout ++ layout.blank
  | layer none => "@layer" ++ layout.blank
  | layer (some name) => "@layer " ++ name ++ layout.blank
  | container name condition =>
    "@container " ++ ((name.map (fun n ↦ writeIdentifier n ++ " ")).getD "")
      ++ condition.write layout ++ layout.blank
  | mozDocument => "@-moz-document url-prefix()" ++ layout.blank
  | startingStyle => "@starting-style" ++ layout.blank
  | scopes start stop =>
    "@scope" ++ layout.blank
      ++ ((start.map (fun s ↦ writeScope layout s ++ layout.blank)).getD "")
      ++ ((stop.map (fun s ↦ (if layout.isCompact then " " else "") ++ "to "
            ++ writeScope layout s ++ layout.blank)).getD "")

/-- The declarations of a style rule, and none for other blocks. -/
def declarations : Head → Declarations
  | style _ d => d
  | _ => .empty

def isStyle : Head → Bool
  | style _ _ => true
  | _ => false

/-- A condition on the medium that always holds. -/
def isAlwaysTrue : Head → Bool
  | media queries => queries.all MediaQuery.matchesAlways
  | _ => false

end Head

namespace Rule

/-- Statements without a block. -/
def isClose : Rule → Bool
  | statement s => s.isClose
  | block _ _ => false

def gap (layout : Layout) (indent : Nat) (afterClose : Bool) (r : Rule) : String :=
  (if afterClose && r.isClose then "" else layout.newline 0) ++ layout.newline indent

def lead (layout : Layout) (indent : Nat) (head : Head) (noRules : Bool) : String :=
  if head.isStyle then
    if noRules then ""
    else (if head.declarations.isEmpty then "" else layout.newline 0) ++ layout.newline indent
  else layout.newline indent

mutual

def write (layout : Layout) (indent : Nat) : Rule → String
  | .statement s => s.write layout indent
  | .block head children =>
    if layout.isCompact && head.isAlwaysTrue then writeAll layout indent children
    else head.front layout ++ "\x7b"
      ++ writeLines layout (indent + 1) (!children.isEmpty)
          (head.declarations.pieces layout (indent + 1))
      ++ lead layout (indent + 1) head children.isEmpty
      ++ writeAll layout (indent + 1) children ++ layout.newline indent ++ "\x7d"

def writeAll (layout : Layout) (indent : Nat) : List Rule → String
  | [] => ""
  | r :: rs => r.write layout indent ++ writeRest layout indent r.isClose rs

def writeRest (layout : Layout) (indent : Nat) (afterClose : Bool) : List Rule → String
  | [] => ""
  | r :: rs =>
    gap layout indent afterClose r ++ r.write layout indent ++ writeRest layout indent r.isClose rs

end

end Rule

end StyleModules.Css
