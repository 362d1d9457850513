import StyleModules.Css.Part.Reader

/-!
# Conditions

Conditional rules ask for features of the medium, of a container or of the browser.  A condition is
kept as the pieces it is written with, so that two conditions are equal when they are written
alike; only the blanks around colons and comparisons depend on the layout.
-/

namespace StyleModules.Css

/-- A piece of a condition. -/
inductive ConditionPiece where
  | text (s : String)
  | parts (list : List Part)
  | colon
  | comparison (operator : String)
deriving DecidableEq, Inhabited, Repr

/-- A condition; `compound` if it needs brackets inside another one. -/
structure Condition where
  pieces : List ConditionPiece
  compound : Bool
deriving DecidableEq, Inhabited, Repr

/-- A query of a medium: its type with an optional `not` or `only`, and features. -/
structure MediaQuery where
  qualifier : Option String
  medium : String
  condition : Option Condition
deriving DecidableEq, Inhabited, Repr

namespace ConditionPiece

def write (layout : Layout) : ConditionPiece → String
  | text s => s
  | parts list => Part.writeFrom layout false list
  | colon => layout.colon
  | comparison operator => layout.between operator

end ConditionPiece

namespace Condition

def write (layout : Layout) (c : Condition) : String :=
  String.join (c.pieces.map (ConditionPiece.write layout))

def bracketed (c : Condition) : Condition :=
  ⟨.text "(" :: c.pieces ++ [.text ")"], false⟩

def operand (c : Condition) : Condition := if c.compound then c.bracketed else c

/-- A bracketed condition without its brackets. -/
def bare (c : Condition) : Condition :=
  if c.pieces.head? = some (.text "(") ∧ c.pieces.getLast? = some (.text ")") ∧ !c.compound then
    ⟨c.pieces.tail.dropLast, false⟩
  else c

def negated (c : Condition) : Condition := ⟨.text "not " :: c.operand.pieces, true⟩

def joined (word : String) (first : Condition) (others : List Condition) : Condition :=
  ⟨first.operand.pieces
    ++ others.flatMap (fun c ↦ .text (" " ++ word ++ " ") :: c.operand.pieces), true⟩

def operands (word : String) (r : Reader Condition) : Nat → Reader (List Condition)
  | 0 => pure []
  | fuel + 1 => do
    match ← Reader.attempt (Reader.keyword word) with
    | none => pure []
    | some () => return (← r) :: (← operands word r fuel)

/-- Reads a condition from operands: a denial, a conjunction or a disjunction. -/
def combination (r : Reader Condition) : Reader Condition := do
  match ← Reader.attempt (Reader.keyword "not") with
  | some () => return negated (← r)
  | none =>
    let first ← r
    let fuel ← Reader.budget
    match ← operands "and" r fuel with
    | [] =>
      match ← operands "or" r fuel with
      | [] => pure first
      | others => pure (joined "or" first others)
    | others => pure (joined "and" first others)

/-- Reads an operand: a bracketed condition, a bracketed feature, or what `other` takes. -/
def operandReader (inner : Reader Condition) (feature : Reader Condition)
    (other : Reader Condition) : Reader Condition :=
  Reader.orElse
    (do
      let source ← Reader.bracketed .round
      Reader.orElse (Reader.within source inner)
        (do return bracketed (← Reader.within source feature)))
    other

/-- Reads a condition whose brackets are nested at most `depth` deep. -/
def reader (feature other : Reader Condition) : Nat → Reader Condition
  | 0 => Reader.fail .invalidMediaQuery
  | depth + 1 => combination (operandReader (reader feature other depth) feature other)

/-! ## Features with values -/

def comparisonReader : Reader String := do
  let first ← Reader.expect fun n ↦
    match n.token with
    | .delimiter '<' => some "<"
    | .delimiter '>' => some ">"
    | .delimiter '=' => some "="
    | _ => none
  if first = "=" then pure first
  else
    let equal : Reader Unit := do
      let n ← Reader.nextRaw
      if n.token = .delimiter '=' then pure () else Reader.fail .invalidMediaQuery
    match ← Reader.attempt equal with
    | some () => pure (first ++ "=")
    | none => pure first

def isComparison (n : Node) : Bool :=
  match n.token with
  | .delimiter c => c == '<' || c == '>' || c == '='
  | _ => false

/-- A length of zero goes without its unit. -/
def plainZero : Part → Part
  | .token (.dimension n unit) =>
    if n.magnitude.digits = 0 ∧ Part.lengthUnits.contains unit.toLower then .token (.number n)
    else .token (.dimension n unit)
  | part => part

def valueReader : Reader ConditionPiece := do
  let list ← Reader.upTo isComparison Part.reader
  if list.isEmpty then Reader.fail .endOfInput else pure (.parts (list.map plainZero))

/-- Reads a feature: its name alone, a name with a value, or a comparison.  Least and greatest
values are comparisons too. -/
def featureReader : Reader Condition :=
  Reader.orElse
    (do
      let name := (← Reader.word).toLower
      match ← Reader.attempt (Reader.token .colon) with
      | some () =>
        let value ← valueReader
        if name.startsWith "min-" then
          pure ⟨[.text (String.ofList (name.toList.drop 4)), .comparison ">=", value], false⟩
        else if name.startsWith "max-" then
          pure ⟨[.text (String.ofList (name.toList.drop 4)), .comparison "<=", value], false⟩
        else pure ⟨[.text name, .colon, value], false⟩
      | none =>
        match ← Reader.attempt comparisonReader with
        | none => do
          Reader.exhausted
          pure ⟨[.text name], false⟩
        | some operator => pure ⟨[.text name, .comparison operator, ← valueReader], false⟩)
    (do
      let low ← valueReader
      let first ← comparisonReader
      let name := (← Reader.word).toLower
      match ← Reader.attempt comparisonReader with
      | none => pure ⟨[.text name, .comparison (flipped first), low], false⟩
      | some second =>
        pure ⟨[low, .comparison first, .text name, .comparison second, ← valueReader], false⟩)
where
  /-- The comparison seen from the other side. -/
  flipped : String → String
    | "<" => ">"
    | ">" => "<"
    | "<=" => ">="
    | ">=" => "<="
    | operator => operator

/-- Nothing else is an operand. -/
def noOther : Reader Condition := do
  let p ← Reader.here
  let n ← Reader.next
  Reader.failAt p (.unexpectedToken n.token)

def queryReader (depth : Nat) : Reader Condition := reader featureReader noOther depth

/-! ## Support of declarations -/

/-- The nodes of a source as they were written, without blanks at the ends. -/
def rawText (nodes : List Node) : String :=
  String.ofList ((trimmed nodes).flatMap raw)
where
  /-- Drops blanks at both ends. -/
  trimmed (nodes : List Node) : List Node :=
    ((nodes.dropWhile Node.isBlank).reverse.dropWhile Node.isBlank).reverse
  /-- A node as it was written. -/
  raw : Node → List Char
    | .leaf l => l.token.chars
    | .block l nodes _ =>
      l.token.chars ++ rawAll nodes
        ++ ((l.token.opens?.map Bracket.closing).map (fun c ↦ [c])).getD []
  /-- Nodes as they were written. -/
  rawAll : List Node → List Char
    | [] => []
    | n :: ns => raw n ++ rawAll ns

/-- Reads a declaration as a feature of the browser; its value is kept as it was written. -/
def declarationReader (name : String → String) : Reader Condition := do
  let property := name (← Reader.word)
  Reader.token .colon
  let s ← get
  set { s with nodes := [] }
  pure ⟨[.text property, .colon, .text (rawText s.nodes)], false⟩

/-- Takes a test of a selector, or anything else in brackets, as it was written. -/
def opaqueOperand : Reader Condition := Reader.expect fun n ↦
  match n with
  | .block l _ _ =>
    match l.token with
    | .function _ => some ⟨[.text (rawText [n])], false⟩
    | .opening .round => some ⟨[.text (rawText [n])], false⟩
    | _ => none
  | .leaf _ => none

/-- Reads the condition of a rule that asks for support. -/
def supportsReader (name : String → String) (depth : Nat) : Reader Condition :=
  reader (declarationReader name) opaqueOperand depth

end Condition

namespace MediaQuery

/-- The query that nothing matches. -/
def none : MediaQuery := ⟨some "not", "all", Option.none⟩

def matchesAlways (q : MediaQuery) : Bool :=
  q.qualifier.isNone && q.medium == "all" && q.condition.isNone

def matchesNever (q : MediaQuery) : Bool :=
  q.qualifier == some "not" && q.medium == "all" && q.condition.isNone

/-- The medium as it is written; it is left out where a condition says enough. -/
def mediumText (q : MediaQuery) : String :=
  if q.medium ≠ "all" then writeIdentifier q.medium
  else if q.qualifier.isSome || q.condition.isNone then "all"
  else ""

def write (layout : Layout) (q : MediaQuery) : String :=
  let front := ((q.qualifier.map (· ++ " ")).getD "") ++ q.mediumText
  match q.condition with
  | .none => front
  | some c => if front = "" then c.write layout else front ++ " and " ++ c.operand.write layout

def writeList (layout : Layout) (queries : List MediaQuery) : String :=
  layout.list (queries.map (MediaQuery.write layout))

/-- Words that are no media. -/
def reserved : List String := ["not", "only", "and", "or", "layer"]

def mediumReader : Reader String := do
  let p ← Reader.here
  let w ← Reader.word
  if reserved.contains w.toLower then Reader.failAt p (.unexpectedToken (.word w))
  else if ["all", "print", "screen"].contains w.toLower then pure w.toLower
  else pure w

def qualifierReader : Reader String := Reader.expect fun n ↦
  match n.token with
  | .word w => if w.toLower = "not" ∨ w.toLower = "only" then some w.toLower else Option.none
  | _ => Option.none

def reader (depth : Nat) : Reader MediaQuery := do
  let typed : Reader (Option String × String) := do
    let q ← Reader.attempt qualifierReader
    pure (q, ← mediumReader)
  match ← Reader.attempt typed with
  | .none => return ⟨.none, "all", some (← Condition.queryReader depth)⟩
  | some (qualifier, medium) =>
    match ← Reader.attempt (Reader.keyword "and") with
    | .none => pure ⟨qualifier, medium, .none⟩
    | some () => return ⟨qualifier, medium, some (← Condition.queryReader depth)⟩

/-- Reads queries with commas between them, possibly none. -/
def listFrom (depth : Nat) : Nat → Reader (List MediaQuery)
  | 0 => pure []
  | fuel + 1 => do
    let s ← get
    let segment := Reader.before (Reader.isToken .comma) s
    if segment.nodes.all Node.isBlank then do
      Reader.skipTo (Reader.isToken .comma)
      pure []
    else
      let q ← Reader.within segment (reader depth)
      Reader.skipTo (Reader.isToken .comma)
      match ← Reader.next? with
      | .none => pure [q]
      | some _ => return q :: (← listFrom depth fuel)

def listReader (depth : Nat) : Reader (List MediaQuery) := do
  listFrom depth (← Reader.budget)

end MediaQuery

end StyleModules.Css
