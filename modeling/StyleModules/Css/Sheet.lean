import StyleModules.Css.Rule.Reader
import StyleModules.Css.Rule.Writer

/-!
# Style sheets

A style sheet is a list of rules behind the licence comments that its text starts with.  All other
comments are dropped.
-/

namespace StyleModules.Css

/-- A style sheet. -/
structure Sheet where
  /-- The comments at the very start that are marked to be kept, without their brackets. -/
  comments : List String
  rules : List Rule
deriving Inhabited, Repr

namespace Sheet

def empty : Sheet := ⟨[], []⟩

/-- The marked comments at the start of some nodes, and the nodes behind the last one. -/
def leadingComments : List Node → List String
  | [] => []
  | n :: rest =>
    match n.token with
    | .whitespace _ => leadingComments rest
    | .comment text => if text.startsWith "!" then text :: leadingComments rest else []
    | _ => []

def rulesReader (depth : Nat) : Reader (List Rule) := do
  Rule.skipCharset
  Rule.topLevel depth (← Reader.budget) .start

/-- Reads a style sheet, or tells what is wrong with the text. -/
def read (text : String) : Except Failure Sheet :=
  let cs := text.toList
  let nodes := Node.ofLexemes (lex text) (Lexer.endPosition .start cs)
  match rulesReader (cs.length + 1) ⟨nodes, Lexer.endPosition .start cs⟩ with
  | .ok (rules, _) => .ok ⟨leadingComments nodes, rules⟩
  | .error e => .error e

def writeComment (text : String) : String := "/*" ++ text ++ "*/\n"

def write (layout : Layout) (s : Sheet) : String :=
  String.join (s.comments.map writeComment) ++ Rule.writeAll layout 0 s.rules ++ layout.newline 0

end Sheet

end StyleModules.Css
