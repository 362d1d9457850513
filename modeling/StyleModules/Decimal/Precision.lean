import StyleModules.Decimal

/-!
# Binary precision

A number of limited precision is a whole number of limited size times a power of two.  A decimal is
rounded to the nearest such number, an exact half to the even one, and a number is named by the
shortest decimal that rounds to it.
-/

namespace StyleModules

/-- How precise numbers are: how many bits are significant, and between which powers of two. -/
structure Precision where
  bits : Nat
  minExponent : Int
  maxExponent : Int
  /-- Decimals whose point is further away than this are too large or too small to matter. -/
  placeLimit : Nat
deriving DecidableEq, Repr

/-- The number `significand * 2 ^ exponent`. -/
structure Binary where
  significand : Nat
  exponent : Int
deriving DecidableEq, Inhabited, Repr

/-- A quotient of natural numbers. -/
structure Ratio where
  num : Nat
  den : Nat
deriving Inhabited, Repr

namespace Ratio

def unscale (r : Ratio) (base : Nat) (exponent : Int) : Ratio :=
  if 0 ≤ exponent then ⟨r.num, r.den * base.pow exponent.toNat⟩
  else ⟨r.num * base.pow (-exponent).toNat, r.den⟩

/-- `r * base ^ exponent`. -/
def scale (r : Ratio) (base : Nat) (exponent : Int) : Ratio := r.unscale base (-exponent)

/-- The nearest whole number, of two the even one. -/
def roundEven (r : Ratio) : Nat :=
  let q := r.num / r.den
  let rest := 2 * (r.num % r.den)
  if rest < r.den ∨ (rest = r.den ∧ q % 2 = 0) then q else q + 1

def ofDecimal (d : Decimal) : Ratio := scale ⟨d.digits, 1⟩ 10 d.exponent

def ofBinary (x : Binary) : Ratio := scale ⟨x.significand, 1⟩ 2 x.exponent

end Ratio

namespace Precision

/-- 24 significant bits. -/
def single : Precision := ⟨24, -149, 104, 60⟩

/-- 53 significant bits. -/
def double : Precision := ⟨53, -1074, 971, 400⟩

def largest (p : Precision) : Binary := ⟨Nat.pow 2 p.bits - 1, p.maxExponent⟩

/-- The power of two at which all significant bits of a positive ratio are before the point. -/
def exponentOf (p : Precision) (r : Ratio) : Int :=
  let guess : Int := (Nat.log2 r.num : Int) - (Nat.log2 r.den : Int) - ((p.bits : Int) - 1)
  let s := r.unscale 2 guess
  let exact := if s.num / s.den < Nat.pow 2 (p.bits - 1) then guess - 1 else guess
  max exact p.minExponent

def ofRatio (p : Precision) (r : Ratio) : Binary :=
  if r.num = 0 then ⟨0, 0⟩
  else
    let e := p.exponentOf r
    let m := (r.unscale 2 e).roundEven
    if m = Nat.pow 2 p.bits then ⟨Nat.pow 2 (p.bits - 1), e + 1⟩ else ⟨m, e⟩

def isFinite (p : Precision) (x : Binary) : Bool := x.exponent ≤ p.maxExponent

/-- The nearest number to a decimal, clamped to the greatest one. -/
def ofDecimal (p : Precision) (d : Decimal) : Binary :=
  if d.digits = 0 ∨ d.pointPlace < -(p.placeLimit : Int) then ⟨0, 0⟩
  else if (p.placeLimit : Int) < d.pointPlace then p.largest
  else
    let rounded := p.ofRatio (.ofDecimal d)
    if p.isFinite rounded then rounded else p.largest

def rounds (p : Precision) (x : Binary) (d : Decimal) : Bool := p.ofRatio (.ofDecimal d) == x

/-- Of the two decimals with last place `10 ^ place` around a number, the nearer one that rounds to
it. -/
def neighbour? (p : Precision) (x : Binary) (place : Int) : Option Decimal :=
  let r := (Ratio.ofBinary x).unscale 10 place
  let q := r.num / r.den
  let rest := 2 * (r.num % r.den)
  let below : Decimal := ⟨q, place⟩
  let above : Decimal := ⟨q + 1, place⟩
  let belowFits := q ≠ 0 && p.rounds x below
  let aboveFits := p.rounds x above
  if belowFits && aboveFits then some (if rest ≤ r.den then below else above)
  else if belowFits then some below
  else if aboveFits then some above
  else none

/-- The first hit among `count` places, going down from `place`. -/
def shortestFrom (p : Precision) (x : Binary) : Nat → Int → Decimal
  | 0, _ => Decimal.zero
  | count + 1, place =>
    match p.neighbour? x place with
    | some d => d.reduced
    | none => shortestFrom p x count (place - 1)

/-- The shortest decimal that rounds to a number. -/
def shortest (p : Precision) (x : Binary) : Decimal :=
  if x.significand = 0 then Decimal.zero
  else
    let r := Ratio.ofBinary x
    let top : Int := (Decimal.digitChars (r.num / r.den)).length
    if r.num / r.den = 0 then p.shortestFrom x (p.placeLimit + 4) 0 else p.shortestFrom x 20 top

/-- A decimal as it is kept. -/
def narrow (p : Precision) (d : Decimal) : Decimal := p.shortest (p.ofDecimal d)

end Precision

end StyleModules
