import StyleModules.Digest.Sha1

/-!
# Reading a digest

The bits of a digest can be cut from the number it is, or read from its hexadecimal digits.  Up to
sixteen digits in a row are always read, and what is read is the number of their bits.
-/

namespace StyleModules.Sha1

def hexValue? (c : Char) : Option Nat :=
  if '0' ≤ c ∧ c ≤ '9' then some (c.toNat - '0'.toNat)
  else if 'a' ≤ c ∧ c ≤ 'f' then some (c.toNat - 'a'.toNat + 10)
  else if 'A' ≤ c ∧ c ≤ 'F' then some (c.toNat - 'A'.toNat + 10)
  else none

/-- Reads one more digit behind a number, unless 64 bits are too few for the result. -/
def readDigit? (n : Nat) (c : Char) : Option Nat :=
  (hexValue? c).bind fun d => if n * 16 + d < UInt64.size then some (n * 16 + d) else none

/-- Reads a number of at most 64 bits from its digits, of which there has to be one at least. -/
def readHex? (digits : List Char) : Option Nat :=
  if digits.isEmpty then none else digits.foldlM readDigit? 0

theorem hexValue?_hexDigit : ∀ n < 16, hexValue? (hexDigit n) = some n := by decide

theorem readDigit?_hexDigit {n d : Nat} (hd : d < 16) (h : n * 16 + d < UInt64.size) :
    readDigit? n (hexDigit d) = some (n * 16 + d) := by
  rw [readDigit?, hexValue?_hexDigit d hd, Option.bind_some, if_pos h]

namespace State

variable (s : State) {start count : Nat}

theorem window_lt (start count : Nat) : s.window start count < Nat.pow 2 count :=
  Nat.mod_lt _ (Nat.two_pow_pos count)

/-- The bits of a window and the four bits behind it make up the longer window. -/
theorem window_add_four (h : start + count + 4 ≤ 160) :
    s.window start (count + 4) = s.window start count * 16 + s.window (start + count) 4 := by
  obtain ⟨rest, hrest⟩ := Nat.le.dest h
  have hfront : 160 - start - count = rest + 4 := by omega
  have hwhole : 160 - start - (count + 4) = rest := by omega
  have hlast : 160 - (start + count) - 4 = rest := by omega
  simp only [window, Nat.pow_eq]
  rw [hfront, hwhole, hlast, Nat.pow_add 2 rest, ← Nat.div_div_eq_div_mul, Nat.pow_add 2 count,
    Nat.mul_comm (2 ^ count), Nat.mod_mul]
  omega

/-- The hexadecimal digits from some place on, as many as there are. -/
theorem take_drop_hex (h : start + count ≤ 40) : (s.hex.drop start).take count =
    (List.range' start count).map fun i ↦ hexDigit (s.window (4 * i) 4) := by
  rw [hex, ← List.map_drop, ← List.map_take, List.range_eq_range', List.drop_range',
    List.take_range'_of_length_ge (by omega), Nat.zero_add, Nat.mul_one]

/-- What is read from some digits in a row are their bits. -/
theorem foldlM_readDigit? (h : start + count ≤ 40) (hcount : count ≤ 16) :
    ((List.range' start count).map fun i ↦ hexDigit (s.window (4 * i) 4)).foldlM readDigit? 0 =
      some (s.window (4 * start) (4 * count)) := by
  induction count with
  | zero =>
    have hempty : s.window (4 * start) 0 = 0 := Nat.mod_one _
    rw [Nat.mul_zero, hempty]
    rfl
  | succ count ih =>
    have hfront := ih (by omega) (by omega)
    have hlong : s.window (4 * start) (4 * (count + 1)) =
        s.window (4 * start) (4 * count) * 16 + s.window (4 * (start + count)) 4 := by
      rw [Nat.mul_succ, window_add_four s (by omega), Nat.mul_add 4 start]
    have hbits : 4 * (count + 1) ≤ 64 := by omega
    have hfits : s.window (4 * start) (4 * (count + 1)) < UInt64.size :=
      Nat.lt_of_lt_of_le (s.window_lt _ _) (Nat.pow_le_pow_right Nat.two_pos hbits)
    rw [hlong] at hfits
    rw [List.range'_concat, List.map_append, List.foldlM_append, hfront, Option.bind_eq_bind,
      Option.bind_some, Nat.one_mul, List.map_singleton, List.foldlM_cons,
      readDigit?_hexDigit (s.window_lt _ 4) hfits, Option.bind_eq_bind, Option.bind_some,
      List.foldlM_nil, Option.pure_def, hlong]

/-- Up to sixteen digits in a row are always read, and what is read are their bits. -/
theorem readHex?_hex (start count : Nat) (h : start + count ≤ 40) (hpos : 0 < count)
    (hcount : count ≤ 16) :
    readHex? ((s.hex.drop start).take count) = some (s.window (4 * start) (4 * count)) := by
  have hne : ((s.hex.drop start).take count).isEmpty = false := by
    rw [take_drop_hex s h]
    obtain ⟨n, rfl⟩ := Nat.exists_eq_succ_of_ne_zero (Nat.ne_of_gt hpos)
    rfl
  rw [readHex?, hne, take_drop_hex s h]
  exact foldlM_readDigit? s h hcount

end State

end StyleModules.Sha1
