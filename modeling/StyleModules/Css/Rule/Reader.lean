import StyleModules.Css.Rule
import StyleModules.Css.Selector.Reader
import StyleModules.Css.Value.Reader

/-!
# Reading rules

A block holds declarations, rules, or both.  A declaration that cannot be read as one is tried as a
nested rule, since `a:hover` can start either; if that fails as well the declaration is to blame.
Declarations inside a conditional rule that is nested in a style rule belong to the parent's
elements, so they are read as a rule for `&`.
-/

namespace StyleModules.Css.Rule

/-- Where a block stands. -/
structure Place where
  /-- Inside a style rule, however deep. -/
  inStyle : Bool
deriving Inhabited

abbrev BodyReader := Place → Reader (Declarations × List Rule)

def isCurly (n : Node) : Bool := n.token == .opening .curly

def isBang (n : Node) : Bool := n.token == .delimiter '!'

def importantReader : Reader Unit := do
  Reader.token (.delimiter '!')
  Reader.keyword "important"

/-- Reads a declaration after its name, and tells whether it is important.  Only a custom property
may have curly brackets in its value. -/
def declarationReader (name : String) : Reader (Declaration × Bool) := do
  Reader.token .colon
  let custom := name.startsWith "--"
  let property := propertyName name
  let value ← Reader.upTo (fun n ↦ isBang n || (!custom && isCurly n)) (Value.reader property)
  let mark ← Reader.attempt importantReader
  Reader.exhausted
  pure (⟨property, value⟩, mark.isSome)

def addDeclaration (d : Declarations) (new : Declaration × Bool) : Declarations :=
  if new.2 then { d with important := d.important ++ [new.1] }
  else { d with normal := d.normal ++ [new.1] }

/-- Reads up to a semicolon, which is taken as well. -/
def throughSemicolon {α : Type} (r : Reader α) : Reader α := do
  let a ← Reader.upTo (Reader.isToken .semicolon) r
  let _ ← Reader.next?
  pure a

/-- Nodes that separate the contents of a block. -/
def isFiller (n : Node) : Bool :=
  n.isBlank || n.token == .semicolon || n.token == .closing .curly

/-- Passes over everything that separates the contents of a block. -/
def skipFillers : Reader Unit := fun s ↦
  .ok ((), { s with nodes := s.nodes.dropWhile isFiller })

def declarationsReader : Nat → Declarations → Reader Declarations
  | 0, d => pure d
  | fuel + 1, d => do
    skipFillers
    match ← Reader.nextRaw? with
    | none => pure d
    | some n =>
      match n.token with
      | .word name => do
        let new ← throughSemicolon (declarationReader name)
        declarationsReader fuel (addDeclaration d new)
      | t => Reader.failAt n.start (.unexpectedToken t)

def fontFaceReader : Nat → Reader (List Declaration)
  | 0 => pure []
  | fuel + 1 => do
    skipFillers
    match ← Reader.nextRaw? with
    | none => pure []
    | some n =>
      match n.token with
      | .word name => do
        let lower := name.toLower
        let property := if lower = "src" ∨ lower = "font-family" then lower else name
        let value ← throughSemicolon do
          Reader.token .colon
          Value.fontFaceReader property
        return ⟨property, value⟩ :: (← fontFaceReader fuel)
      | t => Reader.failAt n.start (.unexpectedToken t)

def frameSelector : Reader String := Reader.expect fun n ↦
  match n.token with
  | .word w =>
    if w.toLower = "from" ∨ w.toLower = "to" then some w.toLower else none
  | .percentage v => some (writeNumeral v ++ "%")
  | _ => none

def framesReader : Nat → Reader (List Frame)
  | 0 => pure []
  | fuel + 1 => do
    skipFillers
    let s ← get
    if s.nodes.isEmpty then pure []
    else
      let selectors ← Reader.upTo isCurly do
        Reader.commaSeparated frameSelector (← Reader.budget)
      let body ← Reader.bracketed .curly
      let d ← Reader.within body do declarationsReader (← Reader.budget) .empty
      return ⟨selectors, d⟩ :: (← framesReader fuel)

/-! ## Preludes -/

/-- What stands between the name of an at-rule and its block or semicolon. -/
inductive Prelude where
  | imported (i : Import)
  | names (initial : Option String) (address : String)
  | charset
  | media (queries : List MediaQuery)
  | supports (condition : Condition)
  | fontFace
  | page (selectors : String)
  | keyframes (keyword : String) (name : String)
  | layers (names : List String)
  | container (name : Option String) (condition : Condition)
  | mozDocument
  | startingStyle
  | scopes (start stop : Option (List Selector))
  | other (keyword : String) (parts : List Part)

def addressOrQuoted : Reader String :=
  Reader.orElse Value.addressReader (Reader.expect fun n ↦
    match n.token with
    | .quoted text => some text
    | _ => none)

/-- Takes the words of a layer's name, with dots between them and no blanks. -/
def layerNameRest : Nat → Reader String
  | 0 => pure ""
  | fuel + 1 => do
    let part : Reader String := do
      let dot ← Reader.nextRaw
      let n ← Reader.nextRaw
      match dot.token, n.token with
      | .delimiter '.', .word w => pure w
      | _, t => Reader.fail (.unexpectedToken t)
    match ← Reader.attempt part with
    | none => pure ""
    | some w => return "." ++ writeIdentifier w ++ (← layerNameRest fuel)

def layerName : Reader String := do
  let w ← Reader.word
  return writeIdentifier w ++ (← layerNameRest (← Reader.budget))

def importLayer : Reader (Option (Option String)) := do
  match ← Reader.attempt (Reader.keyword "layer") with
  | some () => pure (some none)
  | none =>
    match ← Reader.attempt (Reader.call "layer") with
    | none => pure none
    | some arguments => return some (some (← Reader.within arguments layerName))

def importSupports (depth : Nat) : Reader (Option Condition) := do
  match ← Reader.attempt (Reader.call "supports") with
  | none => pure none
  | some arguments =>
    return some (← Reader.orElse
      (do return (← Reader.within arguments (Condition.supportsReader propertyName depth)).bare)
      (Reader.within arguments (Condition.declarationReader propertyName)))

def importReader (depth : Nat) : Reader Import := do
  let address ← addressOrQuoted
  let layer ← importLayer
  let supports ← importSupports depth
  let media ← MediaQuery.listReader depth
  pure ⟨address, layer, supports, media⟩

/-- Words that cannot name a container. -/
def containerReserved : List String := ["none", "and", "or", "not"]

def containerName : Reader String := Reader.expect fun n ↦
  match n.token with
  | .word w => if containerReserved.contains w.toLower then none else some w
  | _ => none

def scopesReader (depth : Nat) : Reader Prelude := do
  let selectors (source : Source) : Reader (List Selector) :=
    Reader.within source (Selector.listReader depth false)
  let start ← match ← Reader.attempt (Reader.bracketed .round) with
    | none => pure none
    | some source => do pure (some (← selectors source))
  let stop ← match ← Reader.attempt (Reader.keyword "to") with
    | none => pure none
    | some () => do
      let source ← Reader.bracketed .round
      pure (some (← selectors source))
  pure (.scopes start stop)

/-- Takes the name of an animation, which is a word or a string. -/
def animationName : Reader String := Reader.expect fun n ↦
  match n.token with
  | .word w => some w
  | .quoted w => some w
  | _ => none

/-- Reads the names of layers, possibly none. -/
def layerNames : Reader (List String) := do
  let s ← get
  if s.nodes.all Node.isBlank then do
    set { s with nodes := [] }
    pure []
  else Reader.commaSeparated layerName (← Reader.budget)

def rawReader : Reader String := fun s ↦
  .ok (Condition.rawText s.nodes, { s with nodes := [] })

/-- Reads the prelude of an at-rule that may stand anywhere. -/
def preludeReader (depth : Nat) (keyword : String) : Reader Prelude := do
  let lower := keyword.toLower
  if lower = "media" then return .media (← MediaQuery.listReader depth)
  else if lower = "supports" then
    return .supports (← Condition.supportsReader propertyName depth)
  else if lower = "font-face" then return .fontFace
  else if lower = "page" then return .page (← rawReader)
  else if withoutVendorMark lower = "keyframes" then return .keyframes lower (← animationName)
  else if lower = "layer" then return .layers (← layerNames)
  else if lower = "container" then
    let name ← Reader.attempt containerName
    return .container name (← Condition.queryReader depth)
  else if lower = "starting-style" then return .startingStyle
  else if lower = "scope" then scopesReader depth
  else if lower = "-moz-document" then
    let arguments ← Reader.call "url-prefix"
    Reader.within arguments do
      let _ ← Reader.attempt (Reader.token (.quoted ""))
      pure .mozDocument
  else return .other keyword (← Part.reader)

/-! ## Blocks -/

/-- What a block of a grouping rule holds: rules, after the declarations for the parent rule. -/
def grouped (content : Declarations × List Rule) : List Rule :=
  if content.1.isEmpty then content.2
  else .block (.style [[.nesting]] content.1) [] :: content.2

def blockReader (inner : BodyReader) (place : Place) (prelude : Prelude) (body : Source) :
    Reader Rule := do
  let rules : Reader (List Rule) := do return grouped (← Reader.within body (inner place))
  match prelude with
  | .media queries =>
    return .block (.media (if queries.isEmpty then [MediaQuery.none] else queries)) (← rules)
  | .supports condition => return .block (.supports condition) (← rules)
  | .layers [] => return .block (.layer none) (← rules)
  | .layers [name] => return .block (.layer (some name)) (← rules)
  | .container name condition => return .block (.container name condition) (← rules)
  | .mozDocument => return .block .mozDocument (← rules)
  | .startingStyle => return .block .startingStyle (← rules)
  | .scopes start stop => return .block (.scopes start stop) (← rules)
  | .fontFace =>
    return .statement (.fontFace (← Reader.within body do fontFaceReader (← Reader.budget)))
  | .page selectors =>
    let d ← Reader.within body do declarationsReader (← Reader.budget) .empty
    return .statement (.page selectors d)
  | .keyframes keyword name =>
    let frames ← Reader.within body do framesReader (← Reader.budget)
    return .statement (.keyframes keyword name frames)
  | .other keyword parts =>
    return .statement (.other keyword parts (some (← Reader.within body Part.reader)))
  | _ => Reader.failAt ((body.nodes.head?.map Node.start).getD body.stop) .invalidAtRuleBody

/-- The statement of a prelude without a block.  The outer option is empty if there must be one,
the inner one if the rule leaves nothing behind. -/
def statement? (place : Place) : Prelude → Option (Option Statement)
  | .imported i => some (some (.imported i))
  | .names initial address => some (some (.names initial address))
  | .charset => some none
  | .layers names =>
    if names.isEmpty || place.inStyle then none else some (some (.layers names))
  | .other keyword parts => some (some (.other keyword parts none))
  | _ => none

/-- Nodes that end a prelude. -/
def endsPrelude (n : Node) : Bool := n.token == .semicolon || isCurly n

/-- Reads an at-rule after its name; a rule may leave nothing behind. -/
def atRule (inner : BodyReader) (place : Place) (prelude : Reader Prelude) :
    Reader (List Rule) := do
  let p ← Reader.upTo endsPrelude prelude
  match ← Reader.next? with
  | some (.block _ nodes stop) => return [← blockReader inner place p ⟨nodes, stop⟩]
  | _ =>
    match statement? place p with
    | none => Reader.fail (.unexpectedToken .semicolon)
    | some none => pure []
    | some (some s) => pure [.statement s]

/-- Reads a style rule.  A missing block shows before anything wrong with the selectors; among
declarations a semicolon ends the selectors as well. -/
def styleRule (inner : BodyReader) (depth : Nat) (place : Place) (amongDeclarations : Bool) :
    Reader Rule := do
  let isEnd : Node → Bool := fun n ↦
    isCurly n || (amongDeclarations && n.token == .semicolon)
  let s ← get
  let selectors :=
    Reader.entirely (Selector.listReader depth place.inStyle) (Reader.before isEnd s)
  Reader.skipTo isEnd
  let body ← Reader.bracketed .curly
  match selectors with
  | .error e => Reader.failAt e.position e.cause
  | .ok (list, _) =>
    let (d, rules) ← Reader.within body (inner ⟨true⟩)
    pure (.block (.style list d) rules)

/-- Reads a declaration, or else a nested rule. -/
def declarationOrRule (inner : BodyReader) (depth : Nat) (place : Place) (name : String)
    (start : Source) : Reader (Declarations × List Rule) := do
  let s ← get
  match throughSemicolon (declarationReader name) s with
  | .ok (d, s') => do
    set s'
    pure (addDeclaration .empty d, [])
  | .error e =>
    match styleRule inner depth place true start with
    | .ok (r, s') => do
      set s'
      pure (.empty, [r])
    | .error _ => Reader.failAt e.position e.cause

def followedBy (a b : Declarations × List Rule) : Declarations × List Rule :=
  (⟨a.1.normal ++ b.1.normal, a.1.important ++ b.1.important⟩, a.2 ++ b.2)

def contents (inner : BodyReader) (depth : Nat) (place : Place) :
    Nat → Reader (Declarations × List Rule)
  | 0 => pure (.empty, [])
  | fuel + 1 => do
    skipFillers
    let start ← get
    match ← Reader.nextRaw? with
    | none => pure (.empty, [])
    | some n =>
      let first ← match n.token with
        | .atKeyword keyword => do
          pure (Declarations.empty, ← atRule inner place (preludeReader depth keyword))
        | .word name =>
          if place.inStyle then declarationOrRule inner depth place name start
          else do
            set start
            pure (Declarations.empty, [← styleRule inner depth place false])
        | _ => do
          set start
          pure (Declarations.empty, [← styleRule inner depth place place.inStyle])
      return followedBy first (← contents inner depth place fuel)

/-- Reads a block whose brackets are nested at most `depth` deep. -/
def bodyReader : Nat → BodyReader
  | 0, _ => Reader.fail .invalidAtRuleBody
  | depth + 1, place => do
    contents (bodyReader depth) (depth + 1) place (← Reader.budget)

/-! ## The top level -/

/-- How far the top level has come; imports must not come late. -/
inductive Progress where
  | start
  | layers
  | imports
  | names
  | body
deriving DecidableEq, Inhabited, Repr

def Progress.allowsImport : Progress → Bool
  | start => true
  | layers => true
  | imports => true
  | _ => false

def Progress.allowsNames : Progress → Bool
  | body => false
  | _ => true

/-- How far a statement brings the top level. -/
def Progress.after (p : Progress) : Rule → Progress
  | .statement (.imported _) => imports
  | .statement (.names _ _) => names
  | .statement (.layers _) =>
    match p with
    | start => layers
    | layers => layers
    | _ => body
  | .statement (.other _ _ none) => p
  | _ => body

def topPrelude (depth : Nat) (progress : Progress) (keyword : String) : Reader Prelude := do
  let lower := keyword.toLower
  if lower = "import" then
    if progress.allowsImport then return .imported (← importReader depth)
    else Reader.fail .misplacedImport
  else if lower = "namespace" then
    if progress.allowsNames then
      let initial ← Reader.attempt Reader.word
      return .names initial (← addressOrQuoted)
    else Reader.fail .misplacedNamespace
  else if lower = "charset" then
    let _ ← addressOrQuoted
    return .charset
  else preludeReader depth keyword

/-- Nodes that separate rules of the top level. -/
def isTopFiller (n : Node) : Bool :=
  n.isBlank || n.token == .commentOpen || n.token == .commentClose

/-- Reads the rules of the top level one after the other. -/
def topLevel (depth : Nat) : Nat → Progress → Reader (List Rule)
  | 0, _ => pure []
  | fuel + 1, progress => do
    let s ← get
    let start := { s with nodes := s.nodes.dropWhile isTopFiller }
    set start
    match start.nodes with
    | [] => pure []
    | n :: rest =>
      let found ← match n.token with
        | .atKeyword keyword => do
          set { start with nodes := rest }
          atRule (bodyReader depth) ⟨false⟩ (topPrelude depth progress keyword)
        | _ => do pure [← styleRule (bodyReader depth) depth ⟨false⟩ false]
      let next := found.foldl Progress.after progress
      return found ++ (← topLevel depth fuel next)

/-- Passes over a character set declaration at the very start. -/
def skipCharset : Reader Unit := fun s ↦
  let start := s.nodes.dropWhile isTopFiller
  match start with
  | n :: rest =>
    match n.token with
    | .atKeyword keyword =>
      if keyword.toLower = "charset" then
        .ok ((), { s with nodes := (rest.dropWhile (fun m ↦ m.token ≠ .semicolon)).drop 1 })
      else .ok ((), s)
    | _ => .ok ((), s)
  | [] => .ok ((), s)

end StyleModules.Css.Rule
