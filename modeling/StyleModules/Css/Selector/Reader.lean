import StyleModules.Css.Selector
import StyleModules.Css.Part.Reader

/-!
# Reading selectors

A selector is a sequence of compound selectors with combinators between them.  What is read is in
normal form: a universal selector beside other conditions is dropped, and an `:is()` around a
single compound selector without a type is replaced by that selector.
-/

namespace StyleModules.Css.Selector

def pseudoClassNames : List String :=
  ["hover", "active", "focus", "focus-visible", "focus-within", "current", "past", "future",
   "playing", "paused", "seeking", "buffering", "stalled", "muted", "volume-locked", "fullscreen",
   "open", "closed", "modal", "picture-in-picture", "popover-open", "defined", "any-link", "link",
   "local-link", "target", "target-within", "visited", "enabled", "disabled", "read-only",
   "read-write", "placeholder-shown", "default", "checked", "indeterminate", "blank", "valid",
   "invalid", "in-range", "out-of-range", "required", "optional", "user-valid", "user-invalid",
   "autofill", "scope", "root", "empty", "first-child", "last-child", "only-child",
   "first-of-type", "last-of-type", "only-of-type"]

def pseudoElementNames : List String :=
  ["cue", "cue-region", "selection", "placeholder", "marker", "backdrop", "file-selector-button",
   "view-transition"]

/-- Pseudo-elements that may be written with a single colon, and are. -/
def plainPseudoElementNames : List String := ["before", "after", "first-line", "first-letter"]

def nthNames : List String :=
  ["nth-child", "nth-last-child", "nth-of-type", "nth-last-of-type", "nth-col", "nth-last-col"]

/-- A selector is understood everywhere: all its pseudo-classes and pseudo-elements are known. -/
def Component.isCommon : Component → Bool
  | .pseudoClass name => pseudoClassNames.contains name
  | .pseudoElement name =>
    plainPseudoElementNames.any (fun n ↦ name == ":" ++ n)
      || pseudoElementNames.any (fun n ↦ name == "::" ++ n)
  | .pseudoClassCall _ _ => false
  | .pseudoElementCall _ _ => false
  | _ => true

/-! ## Counting siblings -/

/-- A whole number with an optional sign, if the text is one. -/
def integer? (cs : List Char) : Option Int :=
  let digits : List Char → Option Int := fun ds ↦
    if ds ≠ [] ∧ ds.all Char.isDigit then some (Lexer.digitsValue ds) else none
  match cs with
  | '+' :: ds => digits ds
  | '-' :: ds => (digits ds).map (fun n ↦ -n)
  | ds => digits ds

/-- The step in front of `n`; no digits mean one. -/
def step? : List Char → Option Int
  | [] => some 1
  | ['+'] => some 1
  | ['-'] => some (-1)
  | cs => integer? cs

/-- The step and offset of a formula without blanks. -/
def formula? (text : List Char) : Option (Int × Int) :=
  if text = "odd".toList then some (2, 1)
  else if text = "even".toList then some (2, 0)
  else
    let front := text.takeWhile (· ≠ 'n')
    match text.drop front.length with
    | [] => (integer? text).map (fun b ↦ (0, b))
    | _ :: [] => (step? front).map (fun a ↦ (a, 0))
    | _ :: back =>
      match back.head? with
      | some '+' => do pure (← step? front, ← integer? back)
      | some '-' => do pure (← step? front, ← integer? back)
      | _ => none

def writeInteger (n : Int) : String := String.ofList (Decimal.signed n)

/-- An integer with its sign in any case. -/
def writeOffset (n : Int) : String := (if n < 0 then "" else "+") ++ writeInteger n

/-- The shortest text of a step and an offset. -/
def writeFormula : Int × Int → String
  | (0, b) => writeInteger b
  | (2, 1) => "odd"
  | (a, b) =>
    let step := if a = 1 then "n" else if a = -1 then "-n" else writeInteger a ++ "n"
    if b = 0 then step else step ++ writeOffset b

def formula : Reader String := do
  let isOf : Node → Bool := fun n ↦
    match n.token with
    | .word w => w.toLower == "of"
    | _ => false
  let s ← get
  let front := Reader.before isOf s
  let text := (front.nodes.filter (fun n ↦ !n.isBlank)).flatMap (fun n ↦ n.token.chars)
  match formula? (text.map Char.toLower) with
  | some f => do
    Reader.skipTo isOf
    pure (writeFormula f)
  | none =>
    let p ← Reader.here
    match ← Reader.next? with
    | some n => Reader.failAt p (.unexpectedToken n.token)
    | none => Reader.fail .endOfInput

def isCombinator : Component → Bool
  | .combinator _ => true
  | _ => false

def isUniversal : Component → Bool
  | .universal => true
  | _ => false

/-- A name of an element, or the universal selector. -/
def isType : Component → Bool
  | .element _ => true
  | .universal => true
  | _ => false

/-- An `:is()` around one compound selector without a type is that selector. -/
def unwrapped (kind : Logical) (alternatives : List Selector) : List Component :=
  match kind, alternatives with
  | .matchesAny, [s] =>
    if !s.isEmpty && !s.any isCombinator && !(s.head?.any isType) then s
    else [.logical kind alternatives]
  | _, _ => [.logical kind alternatives]

/-- A compound selector with more to say drops the universal selector. -/
def compact (compound : List Component) : List Component :=
  if 1 < compound.length then compound.filter (fun c ↦ !isUniversal c) else compound

mutual

/-- A component refers to the parent rule. -/
def refersToParent : Component → Bool
  | .nesting => true
  | .logical _ alternatives => refersToParentInEach alternatives
  | _ => false

def refersToParentInAll : List Component → Bool
  | [] => false
  | c :: cs => refersToParent c || refersToParentInAll cs

def refersToParentInEach : List (List Component) → Bool
  | [] => false
  | s :: ss => refersToParentInAll s || refersToParentInEach ss

end

/-! ## Reading -/

/-- Reads the comparison of an attribute, if there is one. -/
def attributeTest : Reader (Option AttributeTest) := do
  let p ← Reader.here
  match ← Reader.next? with
  | none => pure none
  | some n =>
    let operator ← match n.token with
      | .delimiter '=' => pure none
      | .matching c => pure (some c)
      | t => Reader.failAt p (.attributeOperator t)
    let q ← Reader.here
    let value ← Reader.next
    let text ← match value.token with
      | .word w => pure w
      | .quoted t => pure t
      | t => Reader.failAt q (.attributeValue t)
    match ← Reader.attempt Reader.word with
    | none => pure (some ⟨operator, text, none⟩)
    | some flag =>
      if flag.toLower = "i" ∨ flag.toLower = "s" then
        pure (some ⟨operator, text, some flag.toLower⟩)
      else Reader.failAt q (.unexpectedToken (.word flag))

def attributeSelector : Reader Component := do
  Reader.skipBlanks
  let n ← Reader.next
  match n.token with
  | .word name => return .withAttribute name (← attributeTest)
  | t => Reader.fail (.attributeNeedsName t)

def combinator? : Reader (Option Combinator) := do
  match ← Reader.attempt (Reader.expect fun n ↦
      match n.token with
      | .delimiter '>' => some Combinator.child
      | .delimiter '+' => some .nextSibling
      | .delimiter '~' => some .laterSibling
      | _ => none) with
  | some c => pure (some c)
  | none => pure none

/-- Reads a selector that may start with a combinator. -/
def relative (sub : Reader Selector) : Reader Selector := do
  let _ ← (fun s ↦ (Reader.next s).map (fun r ↦ (r.1, s)) : Reader Node)
  match ← combinator? with
  | some c => return .combinator c :: (← sub)
  | none => sub

/-- The good ones of some alternatives with commas between them. -/
def forgiving (r : Reader Selector) : Nat → Reader (List Selector)
  | 0 => pure []
  | fuel + 1 => do
    let s ← get
    let answer := (Reader.entirely r (Reader.before (Reader.isToken .comma) s)).toOption
    let found := (answer.map (fun a ↦ [a.1])).getD []
    Reader.skipTo (Reader.isToken .comma)
    match ← Reader.next? with
    | none => pure found
    | some _ => return found ++ (← forgiving r fuel)

def pseudoClassCall (sub : Reader Selector) (name : String) (arguments : Source) :
    Reader (List Component) := do
  let lower := name.toLower
  let fuel := arguments.nodes.length + 1
  if lower = "not" then
    return [.logical .negation (← Reader.within arguments (Reader.commaSeparated sub fuel))]
  else if lower = "is" then
    return unwrapped .matchesAny (← Reader.within arguments (forgiving sub fuel))
  else if lower = "where" then
    return [.logical .matchesAnyLightly (← Reader.within arguments (forgiving sub fuel))]
  else if lower = "has" then
    return [.logical .relative (← Reader.within arguments (forgiving (relative sub) fuel))]
  else if lower = "host" then
    return [.outside .host (← Reader.within arguments sub)]
  else if nthNames.contains lower then
    Reader.within arguments do
      let f ← formula
      match ← Reader.attempt (Reader.keyword "of") with
      | none => pure [.nth lower f []]
      | some _ => return [.nth lower f (← Reader.commaSeparated sub fuel)]
  else
    return [.pseudoClassCall name (← Reader.within arguments Part.reader)]

def plainPseudoClass (name : String) : Component :=
  let lower := name.toLower
  if lower = "host" then .outside .host []
  else if pseudoClassNames.contains lower then .pseudoClass lower
  else .pseudoClass name

def plainPseudoElement (name : String) : Component :=
  let lower := name.toLower
  if plainPseudoElementNames.contains lower then .pseudoElement (":" ++ lower)
  else if pseudoElementNames.contains lower then .pseudoElement ("::" ++ lower)
  else .pseudoElement ("::" ++ writeIdentifier name)

/-- Reads what follows the first colon of a pseudo-class or pseudo-element, and tells whether it is
an element. -/
def pseudo (sub : Reader Selector) : Reader (List Component × Bool) := do
  let first ← Reader.nextRaw
  let double := first.token == .colon
  let n ← if double then Reader.nextRaw else pure first
  match n.token with
  | .word name =>
    if double || plainPseudoElementNames.contains name.toLower then
      pure ([plainPseudoElement name], true)
    else pure ([plainPseudoClass name], false)
  | .function name =>
    if double then
      if name.toLower = "slotted" then
        return ([.outside .slotted (← Reader.within (Reader.body n) sub)], true)
      else
        return ([.pseudoElementCall name (← Reader.within (Reader.body n) Part.reader)], true)
    else return (← pseudoClassCall sub name (Reader.body n), false)
  | t => Reader.fail (.pseudoNeedsName t)

/-- Reads one simple selector, if one is there, and tells whether it is a pseudo-element. -/
def simple? (sub : Reader Selector) : Reader (Option (List Component × Bool)) := do
  let start ← get
  match ← Reader.nextRaw? with
  | none => do
    set start
    pure none
  | some n =>
    match n.token with
    | .hash name true => pure (some ([.id name], false))
    | .delimiter '&' => pure (some ([.nesting], false))
    | .delimiter '.' => do
      let p ← Reader.here
      let m ← Reader.nextRaw
      match m.token with
      | .word name => pure (some ([.className name], false))
      | t => Reader.failAt p (.classNeedsName t)
    | .opening .square => return some ([← Reader.within (Reader.body n) attributeSelector], false)
    | .colon => return some (← pseudo sub)
    | _ => do
      set start
      pure none

/-- Reads the simple selectors after the type of a compound selector. -/
def conditions (sub : Reader Selector) : Nat → Reader (List Component × Bool)
  | 0 => pure ([], false)
  | fuel + 1 => do
    match ← simple? sub with
    | none => pure ([], false)
    | some (found, isElement) =>
      let (rest, restIsElement) ← conditions sub fuel
      pure (found ++ rest, isElement || restIsElement)

def type? : Reader (Option Component) := do
  let start ← get
  match ← Reader.nextRaw? with
  | some n =>
    match n.token with
    | .word name => pure (some (.element name))
    | .delimiter '*' => pure (some .universal)
    | _ => do
      set start
      pure none
  | none => do
    set start
    pure none

/-- Reads a compound selector, which may be empty, and tells whether it ends in a
pseudo-element. -/
def compound (sub : Reader Selector) : Reader (List Component × Bool) := do
  Reader.skipBlanks
  let parent ← Reader.attempt (Reader.token (.delimiter '&'))
  let front := if parent.isSome then [Component.nesting] else []
  let type ← type?
  let (rest, isElement) ← conditions sub (← Reader.budget)
  pure (front ++ type.toList ++ rest, isElement)

/-- Reads the combinator between two compound selectors.  Blanks alone are one if another compound
selector can follow. -/
def betweenCompounds : Nat → Bool → Reader (Option Combinator)
  | 0, _ => pure none
  | fuel + 1, blanks => do
    let start ← get
    match ← Reader.nextRaw? with
    | none => pure none
    | some n =>
      match n.token with
      | .whitespace _ => betweenCompounds fuel true
      | .delimiter '>' => pure (some .child)
      | .delimiter '+' => pure (some .nextSibling)
      | .delimiter '~' => pure (some .laterSibling)
      | _ => do
        set start
        pure (if blanks then some .descendant else none)

/-- Reads compound selectors and the combinators between them. -/
def compounds (sub : Reader Selector) : Nat → Bool → Reader Selector
  | 0, _ => pure []
  | fuel + 1, afterCombinator => do
    let (found, isElement) ← compound sub
    if found.isEmpty then
      Reader.fail (if afterCombinator then .danglingCombinator else .emptySelector)
    else if isElement then do
      let p ← Reader.here
      match ← Reader.next? with
      | some n => Reader.failAt p (.afterPseudoElement n.token)
      | none => pure (compact found)
    else
      match ← betweenCompounds (← Reader.budget) false with
      | none => pure (compact found)
      | some c => return compact found ++ .combinator c :: (← compounds sub fuel true)

/-- Reads a selector whose brackets are nested at most `depth` deep. -/
def reader : Nat → Reader Selector
  | 0 => Reader.fail .invalidSelectorState
  | depth + 1 => do compounds (reader depth) (← Reader.budget) false

/-- Reads a selector of a nested rule, which refers to the parent rule in any case. -/
def nestedReader (depth : Nat) : Reader Selector := do
  let s ← relative (reader depth)
  if s.head?.any isCombinator then pure (.nesting :: s)
  else if refersToParentInAll s then pure s
  else pure (.nesting :: .combinator .descendant :: s)

def listReader (depth : Nat) (nested : Bool) : Reader (List Selector) := do
  Reader.commaSeparated (if nested then nestedReader depth else reader depth) (← Reader.budget)

end StyleModules.Css.Selector
