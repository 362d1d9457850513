import Mathlib.Data.Nat.Log
import StyleModules.Text.Base36

/-!
# Digits of base-36 numerals

A numeral has at least one digit, and all of its characters are digits.  The numbers from ten on are
written as letters, in the order of the alphabet.

A numeral denotes the number it was made from and starts with a zero only if that number is zero, so
it has as many digits as the number has in base 36.  Numerals of one length are ordered as strings
like their numbers.  The digits of a word of 64 bits can also be found by dividing it again and
again, which yields the least significant one first; turned round they are the numeral.
-/

namespace StyleModules.Base36

/-- A decimal digit or a lower-case letter. -/
def IsDigit (c : Char) : Prop := ('0' ≤ c ∧ c ≤ '9') ∨ ('a' ≤ c ∧ c ≤ 'z')

instance (c : Char) : Decidable (IsDigit c) :=
  inferInstanceAs (Decidable (('0' ≤ c ∧ c ≤ '9') ∨ ('a' ≤ c ∧ c ≤ 'z')))

theorem isDigit_digit : ∀ n < 36, IsDigit (digit n) := by decide

theorem isLetter_digit : ∀ n < 25, 'a' ≤ digit (n + 10) ∧ digit (n + 10) ≤ 'y' := by decide

theorem numeral_of_lt {n : Nat} (h : n < 36) : numeral n = [digit n] := by
  rw [numeral, if_pos h]

theorem numeral_of_le {n : Nat} (h : 36 ≤ n) :
    numeral n = numeral (n / 36) ++ [digit (n % 36)] := by
  rw [numeral, if_neg (Nat.not_lt.2 h)]

theorem numeral_ne_nil (n : Nat) : numeral n ≠ [] := by
  unfold numeral
  split
  next => simp
  next => simp

theorem isDigit_of_mem_numeral {n : Nat} {c : Char} (h : c ∈ numeral n) : IsDigit c := by
  induction n using numeral.induct with
  | case1 n hn =>
    rw [numeral_of_lt hn, List.mem_singleton] at h
    exact h ▸ isDigit_digit n hn
  | case2 n hn ih =>
    rw [numeral, if_neg hn] at h
    rcases List.mem_append.1 h with hfront | hlast
    · exact ih hfront
    · exact List.mem_singleton.1 hlast ▸ isDigit_digit (n % 36) (Nat.mod_lt n (by decide))

def digitValue (c : Char) : Nat :=
  if c ≤ '9' then c.toNat - '0'.toNat else c.toNat - 'a'.toNat + 10

/-- The number that digits denote, the most significant one of them first. -/
def value (digits : List Char) : Nat :=
  digits.foldl (fun n c ↦ n * 36 + digitValue c) 0

theorem digitValue_digit : ∀ n < 36, digitValue (digit n) = n := by decide

theorem value_append_digit (digits : List Char) (c : Char) :
    value (digits ++ [c]) = value digits * 36 + digitValue c := by
  rw [value, value, List.foldl_append, List.foldl_cons, List.foldl_nil]

theorem value_numeral (n : Nat) : value (numeral n) = n := by
  induction n using numeral.induct with
  | case1 n hn =>
    rw [numeral_of_lt hn]
    calc
      value [digit n] = 0 * 36 + digitValue (digit n) := rfl
      _ = n := by rw [digitValue_digit n hn, Nat.zero_mul, Nat.zero_add]
  | case2 n hn ih =>
    have hlast : n % 36 < 36 := Nat.mod_lt n (by decide)
    calc
      value (numeral n) = value (numeral (n / 36)) * 36 + digitValue (digit (n % 36)) := by
        rw [numeral_of_le (Nat.not_lt.1 hn), value_append_digit]
      _ = n / 36 * 36 + n % 36 := by rw [ih, digitValue_digit _ hlast]
      _ = n := Nat.div_add_mod' n 36

theorem eq_zero_of_digit_eq : ∀ n < 36, digit n = '0' → n = 0 := by decide

theorem head?_numeral_eq_zero_iff (n : Nat) : (numeral n).head? = some '0' ↔ n = 0 := by
  constructor
  · intro h
    induction n using numeral.induct with
    | case1 n hn =>
      rw [numeral_of_lt hn] at h
      exact eq_zero_of_digit_eq n hn (Option.some.inj h)
    | case2 n hn ih =>
      obtain ⟨c, digits, hcons⟩ := List.exists_cons_of_ne_nil (numeral_ne_nil (n / 36))
      rw [numeral_of_le (Nat.not_lt.1 hn), hcons, List.cons_append, List.head?_cons] at h
      have hfront : n / 36 = 0 := ih (by rw [hcons, List.head?_cons, h])
      omega
  · rintro rfl
    rw [numeral_of_lt (by decide)]
    rfl

theorem length_numeral (n : Nat) : (numeral n).length = Nat.log 36 n + 1 := by
  induction n using numeral.induct with
  | case1 n hn => rw [numeral_of_lt hn, Nat.log_of_lt hn, List.length_singleton]
  | case2 n hn ih =>
    have hle : 36 ≤ n := Nat.not_lt.1 hn
    rw [numeral_of_le hle, List.length_append, List.length_singleton, ih,
      Nat.log_of_one_lt_of_le (by decide) hle]

theorem digit_lt_digit : ∀ m < 36, ∀ n < 36, m < n → digit m < digit n := by decide +kernel

/-- Of two texts of one length the one that is less stays less with something behind it. -/
theorem append_lt_append {as bs : List Char} (hlength : as.length = bs.length) (h : as < bs)
    (cs ds : List Char) : as ++ cs < bs ++ ds := by
  induction as generalizing bs with
  | nil =>
    obtain rfl : bs = [] := List.length_eq_zero_iff.1 hlength.symm
    exact absurd h (List.lt_irrefl [])
  | cons a as ih =>
    cases bs with
    | nil => simp at hlength
    | cons b bs =>
      rw [List.cons_append, List.cons_append, List.cons_lt_cons_iff]
      rcases List.cons_lt_cons_iff.1 h with hhead | ⟨hhead, htail⟩
      · exact .inl hhead
      · exact .inr ⟨hhead, ih (Nat.succ.inj hlength) htail⟩

theorem numeral_lt_numeral {m n : Nat} (hlength : (numeral m).length = (numeral n).length)
    (h : m < n) : numeral m < numeral n := by
  induction n using numeral.induct generalizing m with
  | case1 n hn =>
    have hm : m < 36 := Nat.lt_trans h hn
    rw [numeral_of_lt hm, numeral_of_lt hn, List.cons_lt_cons_iff]
    exact .inl (digit_lt_digit m hm n hn h)
  | case2 n hn ih =>
    have hn : 36 ≤ n := Nat.not_lt.1 hn
    have hm : 36 ≤ m := by
      by_contra hm
      rw [numeral_of_lt (Nat.not_le.1 hm), numeral_of_le hn, List.length_append] at hlength
      exact numeral_ne_nil _ (List.length_eq_zero_iff.1 (Nat.succ.inj hlength).symm)
    rw [numeral_of_le hm, numeral_of_le hn] at hlength ⊢
    have hfronts : (numeral (m / 36)).length = (numeral (n / 36)).length := by
      simpa using hlength
    rcases Nat.lt_or_eq_of_le (Nat.div_le_div_right h.le : m / 36 ≤ n / 36) with hfront | hfront
    · exact append_lt_append hfronts (ih hfronts hfront) _ _
    · have hlast : m % 36 < n % 36 := by omega
      rw [hfront]
      apply List.append_left_lt
      rw [List.cons_lt_cons_iff]
      exact .inl (digit_lt_digit _ (Nat.mod_lt m (by decide)) _ (Nat.mod_lt n (by decide)) hlast)

theorem numeral_lt_numeral_iff {m n : Nat} (hlength : (numeral m).length = (numeral n).length) :
    numeral m < numeral n ↔ m < n := by
  refine ⟨fun h ↦ ?_, numeral_lt_numeral hlength⟩
  rcases Nat.lt_trichotomy m n with hlt | rfl | hgt
  · exact hlt
  · exact absurd h (List.lt_irrefl _)
  · exact absurd (numeral_lt_numeral hlength.symm hgt) (List.lt_asymm h)

/-- The digits of a word, each put behind those found before: the least significant one is found
first. -/
def divide (found : List Char) (v : UInt64) : List Char :=
  if v = 0 then found else divide (found ++ [digit (v % 36).toNat]) (v / 36)
termination_by v.toNat
decreasing_by
  rename_i hv
  have hpos : 0 < v.toNat := Nat.pos_of_ne_zero fun h ↦ hv (UInt64.toNat_inj.1 h)
  rw [UInt64.toNat_div]
  exact Nat.div_lt_self hpos (by decide)

def ofWord (v : UInt64) : String :=
  if v = 0 then "0" else String.ofList (divide [] v).reverse

/-- What is found is the numeral of what is left, from its last digit to its first, behind what was
found before. -/
theorem divide_eq (found : List Char) {v : UInt64} (hv : v ≠ 0) :
    divide found v = found ++ (numeral v.toNat).reverse := by
  induction found, v using divide.induct with
  | case1 found => exact absurd rfl hv
  | case2 found v _ ih =>
    have hlast : (v % 36).toNat = v.toNat % 36 := UInt64.toNat_mod v 36
    have hrest : (v / 36).toNat = v.toNat / 36 := UInt64.toNat_div v 36
    rw [divide, if_neg hv, hlast]
    by_cases hdone : v / 36 = 0
    · have hsmall : v.toNat < 36 := by
        rw [hdone] at hrest
        exact Nat.lt_of_div_eq_zero (by decide) hrest.symm
      rw [divide, if_pos hdone, numeral_of_lt hsmall, Nat.mod_eq_of_lt hsmall]
      rfl
    · have hlarge : 36 ≤ v.toNat := by
        by_contra hsmall
        apply hdone
        rw [← UInt64.toNat_inj, hrest, Nat.div_eq_of_lt (Nat.not_le.1 hsmall)]
        rfl
      rw [← hlast, ih hdone, hrest, hlast, numeral_of_le hlarge, List.reverse_append,
        List.append_assoc]
      rfl

theorem ofWord_eq (v : UInt64) : ofWord v = String.ofList (numeral v.toNat) := by
  unfold ofWord
  split
  next hv =>
    subst hv
    rw [UInt64.toNat_zero, numeral_of_lt (by decide)]
    rfl
  next hv => rw [divide_eq [] hv, List.nil_append, List.reverse_reverse]

/-- The numeral of a number consists of digits, as many as the number has in base 36, of which the
first one is a zero only if the number is zero, and it denotes the number.  So no other number has
this numeral, and among the numerals of its length it stands where the number stands among theirs.
For a word of 64 bits repeated division comes to an end with this numeral. -/
theorem numeral_denotes (n : Nat) :
    numeral n ≠ [] ∧ (∀ c ∈ numeral n, IsDigit c) ∧
      ((numeral n).head? = some '0' ↔ n = 0) ∧ value (numeral n) = n ∧
      (∀ m, numeral m = numeral n → m = n) ∧ (numeral n).length = Nat.log 36 n + 1 ∧
      (∀ m, (numeral m).length = (numeral n).length →
        (String.ofList (numeral m) < String.ofList (numeral n) ↔ m < n)) ∧
      ∀ v : UInt64, v.toNat = n → ofWord v = String.ofList (numeral n) := by
  refine ⟨numeral_ne_nil n, fun c ↦ isDigit_of_mem_numeral, head?_numeral_eq_zero_iff n,
    value_numeral n, fun m h ↦ ?_, length_numeral n, fun m h ↦ ?_, ?_⟩
  · calc
      m = value (numeral m) := (value_numeral m).symm
      _ = value (numeral n) := by rw [h]
      _ = n := value_numeral n
  · rw [String.lt_iff, String.toList_ofList, String.toList_ofList]
    exact numeral_lt_numeral_iff h
  · rintro v rfl
    exact ofWord_eq v

end StyleModules.Base36
