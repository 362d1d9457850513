/-!
# Base-36 numerals

Numerals over `0` to `9` and `a` to `z`, most significant digit first and without leading zeros.
-/

namespace StyleModules.Base36

/-- The digit for a value below 36. -/
def digit (n : Nat) : Char :=
  if n < 10 then Char.ofNat ('0'.toNat + n) else Char.ofNat ('a'.toNat + (n - 10))

/-- The numeral of a number; zero is the single digit `0`. -/
def numeral (n : Nat) : List Char :=
  if n < 36 then [digit n] else numeral (n / 36) ++ [digit (n % 36)]
termination_by n
decreasing_by omega

end StyleModules.Base36
