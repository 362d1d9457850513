import StyleModules.Css.Lexer

/-!
# Bracketed text

Brackets give the tokens of a style sheet the shape of a tree.  A bracket that is never closed
reaches to the end of the text, and a closing bracket of another kind is a token like any other.
-/

namespace StyleModules.Css

/-- A token, or an opening token with everything up to its closing bracket. -/
inductive Node where
  | leaf (lexeme : Lexeme)
  /-- The body ends at `stop`, which is where its closing bracket or the end of the text stands. -/
  | block (head : Lexeme) (body : List Node) (stop : Position)
deriving Inhabited

namespace Node

def lexeme : Node → Lexeme
  | leaf l => l
  | block l _ _ => l

def token (n : Node) : Token := n.lexeme.token

def start (n : Node) : Position := n.lexeme.start

def isBlank (n : Node) : Bool := n.token.isBlank

/-- An open bracket: its opening token and what it holds so far, the last node first. -/
structure Frame where
  head : Lexeme
  bracket : Bracket
  held : List Node

/-- Open brackets, the innermost first, and the nodes outside all of them, the last one first. -/
structure Stack where
  frames : List Frame
  outside : List Node

namespace Stack

def add (s : Stack) (n : Node) : Stack :=
  match s.frames with
  | [] => { s with outside := n :: s.outside }
  | f :: fs => { s with frames := { f with held := n :: f.held } :: fs }

/-- Ends the innermost open bracket at a place. -/
def pop (s : Stack) (stop : Position) : Stack :=
  match s.frames with
  | [] => s
  | f :: fs => add { s with frames := fs } (.block f.head f.held.reverse stop)

def step (s : Stack) (l : Lexeme) : Stack :=
  match l.token.opens? with
  | some b => { s with frames := ⟨l, b, []⟩ :: s.frames }
  | none =>
    match l.token.closes?, s.frames with
    | some b, f :: _ => if f.bracket = b then s.pop l.start else s.add (.leaf l)
    | _, _ => s.add (.leaf l)

/-- Ends all open brackets at the end of the text. -/
def finish (s : Stack) (stop : Position) : List Node :=
  (s.frames.foldl (fun s _ ↦ s.pop stop) s).outside.reverse

end Stack

def ofLexemes (lexemes : List Lexeme) (stop : Position) : List Node :=
  (lexemes.foldl Stack.step ⟨[], []⟩).finish stop

end Node

def Node.ofText (text : String) : List Node :=
  ofLexemes (lex text) (Lexer.endPosition .start text.toList)

end StyleModules.Css
