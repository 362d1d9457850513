/-!
# Characters

What kind a character is of depends on where it lies between others, and what a text starts with on
its first character.
-/

namespace StyleModules

variable {c : Char}

theorem isDigit_iff : c.isDigit = true ↔ '0' ≤ c ∧ c ≤ '9' :=
  Bool.and_eq_true_iff.trans (and_congr decide_eq_true_iff decide_eq_true_iff)

theorem isUpper_iff : c.isUpper = true ↔ 'A' ≤ c ∧ c ≤ 'Z' :=
  decide_eq_true_iff

theorem isLower_iff : c.isLower = true ↔ 'a' ≤ c ∧ c ≤ 'z' :=
  Bool.and_eq_true_iff.trans (and_congr decide_eq_true_iff decide_eq_true_iff)

theorem isAlpha_iff : c.isAlpha = true ↔ c.isUpper = true ∨ c.isLower = true :=
  Bool.or_eq_true_iff

theorem isAlphanum_iff : c.isAlphanum = true ↔ c.isAlpha = true ∨ c.isDigit = true :=
  Bool.or_eq_true_iff

theorem isAlpha_of_toLower (h : c.toLower.isAlpha = true) : c.isAlpha = true := by
  unfold Char.toLower at h
  split at h
  next hupper => exact isAlpha_iff.2 (.inl (isUpper_iff.2 hupper))
  next => exact h

theorem toUpper_toLower (h : c.isUpper = true) : c.toLower.toUpper = c := by
  have hall : ∀ n ≤ 'Z'.toNat, (Char.ofNat n).isUpper = true →
      (Char.ofNat n).toLower.toUpper = Char.ofNat n := by decide
  have hc := hall c.toNat (isUpper_iff.1 h).2
  rw [Char.ofNat_toNat] at hc
  exact hc h

theorem toLower_toUpper (h : c.isLower = true) : c.toUpper.toLower = c := by
  have hall : ∀ n ≤ 'z'.toNat, (Char.ofNat n).isLower = true →
      (Char.ofNat n).toUpper.toLower = Char.ofNat n := by decide
  have hc := hall c.toNat (isLower_iff.1 h).2
  rw [Char.ofNat_toNat] at hc
  exact hc h

theorem toLower_eq_self (h : c.isUpper = false) : c.toLower = c :=
  dif_neg fun hupper ↦ by simp [isUpper_iff.2 hupper] at h

/-- A character becomes a small letter if it is this letter or its capital. -/
theorem toLower_eq_iff {letter : Char} (h : letter.isLower = true) :
    c.toLower = letter ↔ c = letter ∨ c = letter.toUpper := by
  constructor
  · rintro rfl
    cases hupper : c.isUpper with
    | true => exact .inr (toUpper_toLower hupper).symm
    | false => exact .inl (toLower_eq_self hupper).symm
  · rintro (rfl | rfl)
    · refine toLower_eq_self (Bool.eq_false_iff.2 fun hupper ↦ ?_)
      exact absurd (Char.le_trans (isLower_iff.1 h).1 (isUpper_iff.1 hupper).2) (by decide)
    · exact toLower_toUpper h

theorem ne_of_isAlpha {x : Char} (h : c.isAlpha = true) (hx : x.isAlpha = false) : x ≠ c := by
  rintro rfl
  exact absurd (h.symm.trans hx) (by decide)

variable {text mark : String}

theorem startsWith_of_toList {rest : List Char} (h : text.toList = mark.toList ++ rest) :
    text.startsWith mark = true :=
  String.startsWith_string_iff.2 ⟨rest, h.symm⟩

/-- A text starts with no mark that starts otherwise. -/
theorem startsWith_eq_false {x : Char} {cs xs : List Char} (htext : text.toList = c :: cs)
    (hmark : mark.toList = x :: xs) (hne : x ≠ c) : text.startsWith mark = false := by
  rw [Bool.eq_false_iff]
  intro hstart
  obtain ⟨behind, hbehind⟩ := String.startsWith_string_iff.1 hstart
  rw [htext, hmark] at hbehind
  exact hne (List.cons.inj hbehind).1

end StyleModules
