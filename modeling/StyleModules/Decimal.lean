/-!
# Decimal numerals

A decimal is a whole number of units of a power of ten.  It can be cut to some number of digits
and written out, positionally where that is short and with an exponent elsewhere.
-/

namespace StyleModules

/-- The number `digits * 10 ^ exponent`. -/
structure Decimal where
  digits : Nat
  exponent : Int
deriving DecidableEq, Inhabited, Repr

namespace Decimal

def zero : Decimal := ⟨0, 0⟩

def digitChars (n : Nat) : List Char := Nat.toDigits 10 n

/-- Drops at most `fuel` trailing zeros. -/
def trimZeros : Nat → Decimal → Decimal
  | 0, d => d
  | fuel + 1, d =>
    if d.digits % 10 = 0 ∧ d.digits ≠ 0 then trimZeros fuel ⟨d.digits / 10, d.exponent + 1⟩ else d

def reduced (d : Decimal) : Decimal :=
  if d.digits = 0 then zero else trimZeros (digitChars d.digits).length d

/-- The number with at most `count` significant digits; a dropped half counts up. -/
def cut (count : Nat) (d : Decimal) : Decimal :=
  let length := (digitChars d.digits).length
  if length ≤ count then d
  else
    let unit := Nat.pow 10 (length - count)
    let kept := d.digits / unit
    let up := 5 ≤ d.digits / (unit / 10) % 10
    reduced ⟨if up then kept + 1 else kept, d.exponent + (length - count : Nat)⟩

def isWhole (d : Decimal) : Bool := d.digits == 0 || 0 ≤ d.reduced.exponent

/-- How many digits stand before the decimal point. -/
def pointPlace (d : Decimal) : Int := (digitChars d.digits).length + d.exponent

/-- Written with the digits in their places. -/
def positional (d : Decimal) : List Char :=
  let chars := digitChars d.digits
  if 0 ≤ d.exponent then chars ++ List.replicate d.exponent.toNat '0'
  else if 0 < d.pointPlace then
    chars.take d.pointPlace.toNat ++ '.' :: chars.drop d.pointPlace.toNat
  else '0' :: '.' :: List.replicate (-d.pointPlace).toNat '0' ++ chars

def signed (n : Int) : List Char :=
  if n < 0 then '-' :: digitChars n.natAbs else digitChars n.natAbs

/-- Written with one digit before the point and an exponent. -/
def scientific (d : Decimal) : List Char :=
  match digitChars d.digits with
  | [] => []
  | [c] => c :: 'e' :: signed (d.pointPlace - 1)
  | c :: rest => c :: '.' :: rest ++ 'e' :: signed (d.pointPlace - 1)

/-- Written so that it does not look like an integer: with a point as long as that is near the
digits, and with an exponent elsewhere. -/
def pointed (d : Decimal) : List Char :=
  if d.digits = 0 then ['0', '.', '0']
  else if -5 < d.pointPlace ∧ d.pointPlace ≤ 16 then
    if 0 ≤ d.exponent then d.positional ++ ['.', '0'] else d.positional
  else d.scientific

/-- Style sheets write numbers positionally as long as the point is at most 21 places from the
start, or preceded by fewer than six zeros. -/
def isPositional (d : Decimal) : Bool :=
  d.digits == 0 || (-6 < d.pointPlace && d.pointPlace ≤ 21)

def chars (d : Decimal) : List Char :=
  if d.isPositional then d.positional else d.scientific

end Decimal

end StyleModules
