import StyleModules.Css.Failure
import StyleModules.Css.Node

/-!
# Reading nodes

A reader takes nodes from the front of a list and either answers or fails at a place.  The place of
a failure is where the next node starts, blanks included; once no node is left it is the place
where the list stops.
-/

namespace StyleModules.Css

/-- The nodes still to read, and where they stop. -/
structure Source where
  nodes : List Node
  stop : Position
deriving Inhabited

abbrev Reader := StateT Source (Except Failure)

namespace Reader

def here : Reader Position := fun s ↦
  .ok ((s.nodes.head?.map Node.start).getD s.stop, s)

def failAt {α : Type} (p : Position) (cause : Cause) : Reader α := fun _ ↦ .error ⟨cause, p⟩

def fail {α : Type} (cause : Cause) : Reader α := do failAt (← here) cause

def skipBlanks : Reader Unit := fun s ↦
  .ok ((), { s with nodes := s.nodes.dropWhile Node.isBlank })

/-- Passes over comments only. -/
def isComment (n : Node) : Bool :=
  match n.token with
  | .comment _ => true
  | _ => false

/-- The next node that is not a comment; blank space counts. -/
def nextRaw? : Reader (Option Node) := fun s ↦
  match s.nodes.dropWhile isComment with
  | [] => .ok (none, { s with nodes := [] })
  | n :: rest => .ok (some n, { s with nodes := rest })

/-- The next node that is not blank. -/
def next? : Reader (Option Node) := do
  skipBlanks
  nextRaw?

/-- The next node that is not blank, which must be there. -/
def next : Reader Node := do
  match ← next? with
  | some n => pure n
  | none => fail .endOfInput

/-- The next node, which must be there; blank space counts. -/
def nextRaw : Reader Node := do
  match ← nextRaw? with
  | some n => pure n
  | none => fail .endOfInput

/-- Reads if possible; otherwise nothing is taken. -/
def attempt {α : Type} (r : Reader α) : Reader (Option α) := fun s ↦
  match r s with
  | .ok (a, s') => .ok (some a, s')
  | .error _ => .ok (none, s)

def orElse {α : Type} (r : Reader α) (other : Reader α) : Reader α := fun s ↦
  match r s with
  | .ok a => .ok a
  | .error _ => other s

def exhausted : Reader Unit := do
  let p ← here
  match ← next? with
  | none => pure ()
  | some n => failAt p (.unexpectedToken n.token)

def entirely {α : Type} (r : Reader α) : Reader α := do
  let a ← r
  exhausted
  pure a

/-- Takes the next node if it satisfies a test; another one is named in the failure. -/
def expect {α : Type} (test : Node → Option α) : Reader α := do
  let p ← here
  let n ← next
  match test n with
  | some a => pure a
  | none => failAt p (.unexpectedToken n.token)

def word : Reader String := expect fun n ↦
  match n.token with
  | .word name => some name
  | _ => none

def keyword (name : String) : Reader Unit := expect fun n ↦
  match n.token with
  | .word w => if w.toLower = name then some () else none
  | _ => none

def token (t : Token) : Reader Unit := expect fun n ↦
  if n.token = t then some () else none

/-- Takes an opening token and answers with its body. -/
def body (n : Node) : Source :=
  match n with
  | .leaf l => ⟨[], l.start⟩
  | .block _ nodes stop => ⟨nodes, stop⟩

/-- Takes a call of a function, in any letter case, and answers with its arguments. -/
def call (name : String) : Reader Source := expect fun n ↦
  match n.token with
  | .function f => if f.toLower = name then some (body n) else none
  | _ => none

def bracketed (b : Bracket) : Reader Source := expect fun n ↦
  if n.token = .opening b then some (body n) else none

def within {α : Type} (source : Source) (r : Reader α) : Reader α := fun s ↦
  match entirely r source with
  | .ok (a, _) => .ok (a, s)
  | .error e => .error e

/-- The nodes before the first one that satisfies a test. -/
def before (test : Node → Bool) (s : Source) : Source :=
  let rest := s.nodes.dropWhile (fun n ↦ !test n)
  ⟨s.nodes.takeWhile (fun n ↦ !test n), (rest.head?.map Node.start).getD s.stop⟩

/-- Passes over all nodes before the first one that satisfies a test. -/
def skipTo (test : Node → Bool) : Reader Unit := fun s ↦
  .ok ((), { s with nodes := s.nodes.dropWhile (fun n ↦ !test n) })

/-- Reads all nodes before the first one that satisfies a test. -/
def upTo {α : Type} (test : Node → Bool) (r : Reader α) : Reader α := do
  let s ← get
  let a ← within (before test s) r
  skipTo test
  pure a

/-- Answers of a reader for as long as it succeeds, at most `fuel` of them. -/
def many {α : Type} (r : Reader α) : Nat → Reader (List α)
  | 0 => pure []
  | fuel + 1 => do
    match ← attempt r with
    | none => pure []
    | some a => return a :: (← many r fuel)

/-- More reads than there are nodes never succeed, so this bounds a repetition. -/
def budget : Reader Nat := fun s ↦ .ok (s.nodes.length + 1, s)

def isToken (t : Token) (n : Node) : Bool := n.token == t

/-- Reads the items of a list with commas between them.  The last item ends the source. -/
def commaSeparated {α : Type} (r : Reader α) : Nat → Reader (List α)
  | 0 => pure []
  | fuel + 1 => do
    let a ← upTo (isToken .comma) r
    match ← next? with
    | none => pure [a]
    | some _ => return a :: (← commaSeparated r fuel)

end Reader

end StyleModules.Css
