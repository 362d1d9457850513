import StyleModules.Decimal.Precision
import StyleModules.Json.Reader

/-!
# Reading numbers

A number without fraction and exponent is an integer as long as it fits 64 bits.  Any other one is
kept in double precision, made of the digits that fit 64 bits and a power of ten.
-/

namespace StyleModules.Json.Reader

/-- Whole numbers are kept up to this one. -/
def maxWhole : Nat := Nat.pow 2 64 - 1

/-- Exponents are kept up to this one. -/
def maxExponent : Nat := Nat.pow 2 31 - 1

def digitValue (c : Char) : Nat := c.toNat - '0'.toNat

/-- Appends digits to a number as long as it does not get too large; the digits that are left come
second. -/
def absorb (limit : Nat) : Nat → List Char → Nat × List Char
  | n, [] => (n, [])
  | n, c :: cs =>
    if limit < n * 10 + digitValue c then (n, c :: cs) else absorb limit (n * 10 + digitValue c) cs

def digits : Reader (List Char) := do
  let run := (← get).rest.takeWhile Char.isDigit
  skipMany run.length
  pure run

def greatestPower : Nat := 308

def power (n : Nat) : Binary := Precision.double.ofRatio ⟨Nat.pow 10 n, 1⟩

def times (x y : Binary) : Binary :=
  let (a, b) := (Ratio.ofBinary x, Ratio.ofBinary y)
  Precision.double.ofRatio ⟨a.num * b.num, a.den * b.den⟩

def dividedBy (x y : Binary) : Binary :=
  let (a, b) := (Ratio.ofBinary x, Ratio.ofBinary y)
  Precision.double.ofRatio ⟨a.num * b.den, a.den * b.num⟩

/-- A number times a power of ten, unless that is too large.  A very small power is applied in
steps. -/
def scaled : Nat → Binary → Int → Option Binary
  | 0, x, _ => some x
  | steps + 1, x, e =>
    if e.natAbs ≤ greatestPower then
      if 0 ≤ e then
        let y := times x (power e.natAbs)
        if Precision.double.isFinite y then some y else none
      else some (dividedBy x (power e.natAbs))
    else if x.significand = 0 then some x
    else if 0 ≤ e then none
    else scaled steps (dividedBy x (power greatestPower)) (e + greatestPower)

/-- A number made of its digits and a power of ten. -/
def fraction (negative : Bool) (n : Nat) (e : Int) : Reader Found :=
  match scaled 4 (Precision.double.ofRatio ⟨n, 1⟩) e with
  | some x => pure (.number negative (Precision.double.shortest x))
  | none => fail .numberTooLarge

/-- The sign of an exponent: it is positive. -/
def exponentSign : Reader Bool := do
  match ← peek with
  | some '+' => skip; pure true
  | some '-' => skip; pure false
  | _ => pure true

def exponent (negative : Bool) (n : Nat) (before : Int) : Reader Found := do
  skip
  let positive ← exponentSign
  match ← peek with
  | none => fail .endInValue
  | some c =>
    if !c.isDigit then failNext .badNumber
    else
      let run := (← get).rest.takeWhile Char.isDigit
      match absorb maxExponent 0 run with
      | (e, []) =>
        skipMany run.length
        fraction negative n (if positive then before + e else before - e)
      | (_, left) =>
        if n ≠ 0 ∧ positive then
          skipMany (run.length - left.length + 1)
          fail .numberTooLarge
        else
          skipMany run.length
          pure (.number negative Decimal.zero)

/-- A number at the place where an exponent can follow. -/
def beforeExponent (negative : Bool) (n : Nat) (e : Int) : Reader Found := do
  match ← peek with
  | some 'e' | some 'E' => exponent negative n e
  | _ => fraction negative n e

def decimals (negative : Bool) (n : Nat) (before : Int) : Reader Found := do
  skip
  let run ← digits
  if run.isEmpty then
    match ← peek with
    | some _ => failNext .badNumber
    | none => failNext .endInValue
  else
    let (m, left) := absorb maxWhole n run
    beforeExponent negative m (before - (run.length - left.length : Nat))

/-- A whole number that fits, or a fraction if it does not fit with its sign. -/
def whole (negative : Bool) (n : Nat) : Reader Found :=
  if !negative then pure (.integer n)
  else if n = 0 ∨ Nat.pow 2 63 < n then fraction true n 0
  else pure (.integer (-n))

/-- A number behind its first digits, of which so many did not fit. -/
def afterDigits (negative : Bool) (n : Nat) (lost : Nat) : Reader Found := do
  match ← peek with
  | some '.' => decimals negative n lost
  | some 'e' | some 'E' => exponent negative n lost
  | _ => if lost = 0 then whole negative n else fraction negative n lost

def number (negative : Bool) : Reader Found := do
  match ← peek with
  | none => fail .endInValue
  | some '0' =>
    skip
    match ← peek with
    | some c => if c.isDigit then failNext .badNumber else afterDigits negative 0 0
    | none => afterDigits negative 0 0
  | some c =>
    if !c.isDigit then failNext .badNumber
    else
      let (n, left) := absorb maxWhole 0 (← digits)
      afterDigits negative n left.length

end StyleModules.Json.Reader
