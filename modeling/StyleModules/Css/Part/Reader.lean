import StyleModules.Css.Part
import StyleModules.Css.Reader

/-!
# Reading free-form values

Whitespace and comments become a single blank, and none at all beside a comma, a delimiter or a
closing bracket.  Stray closing brackets and broken strings or addresses are no values.
-/

namespace StyleModules.Css.Part

/-- Commas and delimiters separate tokens without blanks. -/
def isSeparator (n : Node) : Bool :=
  match n.token with
  | .comma => true
  | .delimiter _ => true
  | _ => false

/-- No blank is needed in front of these nodes. -/
def needsNoBlank : List Node → Bool
  | [] => false
  | n :: _ => n.isBlank || isSeparator n

/-- A token that no value may hold. -/
def isBroken : Token → Bool
  | .closing _ => true
  | .badAddress _ => true
  | .badQuoted _ => true
  | _ => false

/-- The value of a number, at most `limit` and whole. -/
def byteOf? (n : Node) : Option Nat :=
  match n.token with
  | .number v =>
    match v.integer with
    | some i => some (min i.toNat 255)
    | none => none
  | _ => none

/-- A number or percentage as a part of 255, to the nearest one. -/
def alphaOf? (n : Node) : Option Nat :=
  let scaled (v : Numeral) (factor : Nat) (shift : Int) : Nat :=
    if v.negative then 0
    else
      let e := v.magnitude.exponent + shift
      let m := v.magnitude.digits * factor
      let rounded := if 0 ≤ e then m * Nat.pow 10 (min e.toNat 9)
        else (m + Nat.pow 10 (min (-e).toNat 60) / 2) / Nat.pow 10 (min (-e).toNat 60)
      min rounded 255
  match n.token with
  | .number v => some (scaled v 255 0)
  | .percentage v => some (scaled v 255 (-2))
  | _ => none

/-- The colour of a call of `rgb` or `rgba` with whole numbers. -/
def colorOfCall? (name : String) (arguments : List Node) : Option Color :=
  let solid := arguments.filter (fun n ↦ !n.isBlank)
  if name.toLower = "rgb" ∨ name.toLower = "rgba" then
    match solid with
    | [a, b, c, d, e] =>
      if b.token == .comma && d.token == .comma then do
        pure (.rgba (← byteOf? a) (← byteOf? c) (← byteOf? e) 255)
      else if d.token == .delimiter '/' then do
        pure (.rgba (← byteOf? a) (← byteOf? b) (← byteOf? c) (← alphaOf? e))
      else none
    | [r, c₁, g, c₂, b, c₃, a] =>
      if c₁.token == .comma && c₂.token == .comma && c₃.token == .comma then do
        pure (.rgba (← byteOf? r) (← byteOf? g) (← byteOf? b) (← alphaOf? a))
      else none
    | [r, g, b] => do pure (.rgba (← byteOf? r) (← byteOf? g) (← byteOf? b) 255)
    | _ => none
  else none

/-- The string that the arguments of `url` consist of. -/
def addressOfCall? (arguments : List Node) : Option String :=
  match arguments.filter (fun n ↦ !n.isBlank) with
  | [n] =>
    match n.token with
    | .quoted text => some text
    | _ => none
  | _ => none

def trimmed (parts : List Part) : List Part :=
  ((parts.dropWhile isBlank).reverse.dropWhile isBlank).reverse

mutual

def ofNode : Node → Except Failure (List Part)
  | .leaf l =>
    match l.token with
    | .address text => .ok [address text]
    | .hash name _ =>
      match Color.ofDigits? name with
      | some c => .ok [color c]
      | none => .ok [token l.token]
    | t => if isBroken t then .error ⟨.unexpectedToken t, l.start⟩ else .ok [token t]
  | .block l nodes stop =>
    match l.token with
    | .function name =>
      match colorOfCall? name nodes with
      | some c => .ok [color c]
      | none =>
        if name = "url" then
          match addressOfCall? nodes with
          | some text => .ok [address text]
          | none => .error ⟨.endOfInput, stop⟩
        else do
          let parts ← ofNodes false nodes
          .ok (token l.token :: trimmed parts ++ [token (.closing .round)])
    | .opening b => do
      let parts ← ofNodes false nodes
      .ok (token l.token :: parts ++ [token (.closing b)])
    | t => .error ⟨.unexpectedToken t, l.start⟩

/-- The parts of a list of nodes.  After a delimiter or a bracket no blank is needed. -/
def ofNodes : Bool → List Node → Except Failure (List Part)
  | _, [] => .ok []
  | afterSeparator, n :: rest =>
    if n.isBlank then
      if afterSeparator || needsNoBlank rest then ofNodes afterSeparator rest
      else do .ok (blank :: (← ofNodes false rest))
    else do
      let parts ← ofNode n
      let tight := isSeparator n || parts.getLast? matches some (token (.closing _))
      .ok (parts ++ (← ofNodes tight rest))

end

def reader : Reader (List Part) := fun s ↦
  match ofNodes false s.nodes with
  | .ok parts => .ok (trimmed parts, { s with nodes := [] })
  | .error e => .error e

end StyleModules.Css.Part
