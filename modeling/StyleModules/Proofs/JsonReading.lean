import Mathlib.Tactic.SplitIfs
import StyleModules.Json.Decode

/-!
# What readers take

A reader takes a piece of text for a value when it reads that value off the front of every text
that starts with the piece, wherever it stands.  Pieces are put together as the readers are.  A
text that was quoted is taken for itself.
-/

namespace StyleModules.Json.Reader

variable {α β : Type}

/-- In front of any text the piece is read as the value, and nothing else is gone past. -/
def Takes (r : Reader α) (piece : List Char) (a : α) : Prop :=
  ∀ rest place, ∃ place', r ⟨piece ++ rest, place⟩ = .ok (a, ⟨rest, place'⟩)

/-- Only blanks. -/
def IsGap (cs : List Char) : Prop := ∀ c ∈ cs, isBlank c = true

theorem isGap_nil : IsGap [] := List.forall_mem_nil _

theorem bind_of_eq {r : Reader α} {f : α → Reader β} {c c' : Cursor} {a : α}
    (h : r c = .ok (a, c')) : (r >>= f) c = f a c' := by
  change (r c >>= fun p ↦ f p.1 p.2) = f a c'
  rw [h]
  rfl

namespace Takes

variable {r : Reader α} {f : α → Reader β} {cs cs' gap : List Char} {a : α} {b : β} {c : Char}

theorem pure (a : α) : Takes (Pure.pure a) [] a := fun _ place ↦ ⟨place, rfl⟩

theorem bind (h : Takes r cs a) (h' : Takes (f a) cs' b) : Takes (r >>= f) (cs ++ cs') b := by
  intro rest place
  obtain ⟨between, hfirst⟩ := h (cs' ++ rest) place
  obtain ⟨behind, hsecond⟩ := h' rest between
  exact ⟨behind, by rw [List.append_assoc, bind_of_eq hfirst, hsecond]⟩

/-- A reader whose second part takes nothing more. -/
theorem bind_nil (h : Takes r cs a) (h' : Takes (f a) [] b) : Takes (r >>= f) cs b :=
  List.append_nil cs ▸ h.bind h'

theorem map (g : α → β) (h : Takes r cs a) : Takes (g <$> r) cs (g a) := by
  intro rest place
  obtain ⟨behind, hread⟩ := h rest place
  refine ⟨behind, ?_⟩
  change (r _ >>= fun p ↦ Pure.pure (g p.1, p.2)) = _
  rw [hread]
  rfl

/-- A reader that goes past a character and then reads on. -/
theorem skip {f : Unit → Reader β} (h : Takes (f ()) cs b) (c : Char) :
    Takes (Reader.skip >>= f) (c :: cs) b := by
  intro rest place
  obtain ⟨behind, hread⟩ := h rest (place.after c)
  have hpast : Reader.skip ⟨c :: (cs ++ rest), place⟩ = .ok ((), ⟨cs ++ rest, place.after c⟩) := rfl
  exact ⟨behind, by rw [List.cons_append, bind_of_eq hpast, hread]⟩

theorem peek {f : Option Char → Reader β} (h : Takes (f (some c)) (c :: cs) b) :
    Takes (Reader.peek >>= f) (c :: cs) b := by
  intro rest place
  obtain ⟨behind, hread⟩ := h rest place
  exact ⟨behind, by rw [bind_of_eq (a := some c) rfl, hread]⟩

theorem budget {f : Nat → Reader β} (h : ∀ n, cs.length < n → Takes (f n) cs b) :
    Takes (Reader.budget >>= f) cs b := by
  intro rest place
  have hlength : cs.length < (cs ++ rest).length + 1 := by
    rw [List.length_append]
    omega
  obtain ⟨behind, hread⟩ := h _ hlength rest place
  exact ⟨behind, by rw [bind_of_eq (a := (cs ++ rest).length + 1) rfl, hread]⟩

end Takes

theorem peekSolid_eq {gap cs : List Char} (hgap : IsGap gap) {c : Char} (hc : isBlank c = false)
    (place : Place) : peekSolid ⟨gap ++ c :: cs, place⟩ =
      .ok (some c, ⟨c :: cs, gap.foldl Place.after place⟩) := by
  have hrun : (gap ++ c :: cs).takeWhile isBlank = gap := by
    rw [List.takeWhile_append_of_pos hgap, List.takeWhile_cons_of_neg (by simp [hc]),
      List.append_nil]
  have hskipped : skipMany ((gap ++ c :: cs).takeWhile isBlank).length ⟨gap ++ c :: cs, place⟩ =
      .ok ((), ⟨c :: cs, gap.foldl Place.after place⟩) := by
    rw [hrun, skipMany, List.drop_left, List.take_left]
  rw [peekSolid, bind_of_eq (a := ⟨gap ++ c :: cs, place⟩) rfl, bind_of_eq hskipped]
  rfl

namespace Takes

variable {cs gap : List Char} {b : β} {c : Char}

theorem peekSolid {f : Option Char → Reader β} (hgap : IsGap gap) (hc : isBlank c = false)
    (h : Takes (f (some c)) (c :: cs) b) : Takes (Reader.peekSolid >>= f) (gap ++ c :: cs) b := by
  intro rest place
  obtain ⟨behind, hread⟩ := h rest (gap.foldl Place.after place)
  exact ⟨behind, by
    rw [List.append_assoc, List.cons_append, bind_of_eq (peekSolid_eq hgap hc place)]
    exact hread⟩

theorem solid {f : Option Char → Reader β} (hc : isBlank c = false)
    (h : Takes (f (some c)) (c :: cs) b) : Takes (Reader.peekSolid >>= f) (c :: cs) b :=
  peekSolid isGap_nil hc h

/-- A reader that goes past a character and looks at the next one behind some blanks. -/
theorem skip_peekSolid {γ : Type} {g : Option Char → Reader γ} {f : γ → Reader β} (first : Char)
    (hgap : IsGap gap) (hc : isBlank c = false) (h : Takes (g (some c) >>= f) (c :: cs) b) :
    Takes ((Reader.skip >>= fun _ ↦ Reader.peekSolid >>= g) >>= f)
      (first :: (gap ++ c :: cs)) b := by
  simp only [bind_assoc]
  exact .skip (.peekSolid hgap hc h) first

theorem valueStart {f : Char → Reader β} (hgap : IsGap gap) (hc : isBlank c = false)
    (h : Takes (f c) (c :: cs) b) : Takes (Reader.valueStart >>= f) (gap ++ c :: cs) b := by
  rw [Reader.valueStart, bind_assoc]
  exact peekSolid hgap hc (by simpa using h)

end Takes

theorem takes_word (cs : List Char) : Takes (word cs) cs () := by
  induction cs with
  | nil => exact .pure ()
  | cons c cs ih =>
    refine .peek ?_
    simp only [if_true]
    exact ih.skip c

/-! ## Quoted texts -/

theorem hexNumber?_hexDigit :
    ∀ n < 32, hexNumber? ['0', '0', hexDigit (n / 16), hexDigit n] = some n := by
  decide

theorem length_le_utf8Size (cs : List Char) :
    cs.length ≤ (cs.map Char.utf8Size).foldr (· + ·) 0 := by
  induction cs with
  | nil => exact Nat.le_refl 0
  | cons c cs ih =>
    have hpos := c.utf8Size_pos
    rw [List.map_cons, List.foldr_cons, List.length_cons]
    omega

theorem takes_codeUnit {n : Nat} (hn : n < 32) :
    Takes codeUnit ['0', '0', hexDigit (n / 16), hexDigit n] n := by
  intro rest place
  generalize hdigits : ['0', '0', hexDigit (n / 16), hexDigit n] = digits
  have hlength : digits.length = 4 := by rw [← hdigits]; rfl
  have hbytes : ¬ ((digits ++ rest).map Char.utf8Size).foldr (· + ·) 0 < 4 := by
    -- every character has a byte at least, and there are four digits
    have hle := length_le_utf8Size (digits ++ rest)
    rw [List.length_append] at hle
    omega
  have hnumber : hexNumber? ((digits ++ rest).take 4) = some n := by
    rw [← hlength, List.take_left, ← hdigits]
    exact hexNumber?_hexDigit n hn
  refine ⟨digits.foldl Place.after place, ?_⟩
  rw [codeUnit, bind_of_eq (a := ⟨digits ++ rest, place⟩) rfl]
  simp only [if_neg hbytes, hnumber]
  have hskipped : skipMany 4 ⟨digits ++ rest, place⟩ =
      .ok ((), ⟨rest, digits.foldl Place.after place⟩) := by
    rw [← hlength, skipMany, List.drop_left, List.take_left]
  rw [bind_of_eq hskipped]
  rfl

/-- A letter behind a backslash that stands for a character. -/
theorem takes_escape {c x : Char} (hc : c ≠ 'u') (h : unescape? c = some x) :
    Takes character? ['\\', c] (some x) := by
  have hletter : Takes escaped [c] x := by
    refine .peek ?_
    split
    case h_1 heq => cases heq
    case h_2 heq => exact absurd (Option.some.inj heq) hc
    case h_3 heq =>
      obtain rfl := Option.some.inj heq
      rw [h]
      exact (Takes.pure x).skip c
  exact .peek ((hletter.map some).skip '\\')

/-- A character that has no letter stands behind a backslash with its code. -/
theorem takes_coded {c : Char} (hc : c.toNat < 32) : Takes character?
    ['\\', 'u', '0', '0', hexDigit (c.toNat / 16), hexDigit c.toNat] (some c) := by
  have hcode : Takes codedCharacter ['0', '0', hexDigit (c.toNat / 16), hexDigit c.toNat] c := by
    refine (takes_codeUnit hc).bind_nil ?_
    -- so small a code is no half of a pair
    have hnotTrailing : isTrailing c.toNat = false := by simp [isTrailing]; omega
    have hnotLeading : isLeading c.toNat = false := by simp [isLeading]; omega
    simp only [hnotTrailing, hnotLeading, Bool.false_eq_true, if_false, Char.ofNat_toNat]
    exact .pure c
  exact .peek (((Takes.peek (hcode.skip 'u')).map some).skip '\\')

theorem takes_plain {c : Char} (hquote : c ≠ '"') (hbackslash : c ≠ '\\') (hc : ¬ c.toNat < 32) :
    Takes character? [c] (some c) := by
  refine .peek ?_
  split
  case h_1 heq => cases heq
  case h_2 heq => exact absurd (Option.some.inj heq) hquote
  case h_3 heq => exact absurd (Option.some.inj heq) hbackslash
  case h_4 heq =>
    obtain rfl := Option.some.inj heq
    rw [if_neg hc]
    exact (Takes.pure (some c)).skip c

theorem takes_character? (c : Char) : Takes character? (escape c) (some c) := by
  have hcontrol {n : Nat} (h : c.toNat = n) : c = Char.ofNat n := by
    rw [← h, Char.ofNat_toNat]
  unfold escape
  split_ifs with hquote hbackslash hline hreturn htab hback hfeed hcode
  · exact takes_escape (by decide) (by rw [hquote]; decide)
  · exact takes_escape (by decide) (by rw [hbackslash]; decide)
  · exact takes_escape (by decide) (by rw [hline]; decide)
  · exact takes_escape (by decide) (by rw [hreturn]; decide)
  · exact takes_escape (by decide) (by rw [htab]; decide)
  · exact takes_escape (by decide) (by rw [hcontrol hback]; decide)
  · exact takes_escape (by decide) (by rw [hcontrol hfeed]; decide)
  · exact takes_coded hcode
  · exact takes_plain hquote hbackslash hcode

theorem takes_characters (cs before : List Char) {n : Nat} (hn : cs.length < n) :
    Takes (characters n before) (cs.flatMap escape ++ ['"']) (before.reverse ++ cs) := by
  induction cs generalizing n before with
  | nil =>
    obtain ⟨n, rfl⟩ := Nat.exists_eq_succ_of_ne_zero (Nat.ne_of_gt hn)
    have hend : Takes character? ['"'] none := .peek ((Takes.pure none).skip '"')
    rw [characters, List.append_nil]
    exact hend.bind_nil (.pure _)
  | cons c cs ih =>
    obtain ⟨n, rfl⟩ := Nat.exists_eq_succ_of_ne_zero (Nat.ne_of_gt (Nat.zero_lt_of_lt hn))
    have hrest := ih (c :: before) (Nat.lt_of_succ_lt_succ hn)
    rw [characters, List.flatMap_cons, List.append_assoc]
    rw [List.reverse_cons, List.append_assoc, List.singleton_append] at hrest
    exact (takes_character? c).bind hrest

theorem length_le_flatMap_escape (cs : List Char) : cs.length ≤ (cs.flatMap escape).length := by
  induction cs with
  | nil => exact Nat.le_refl 0
  | cons c cs ih =>
    have hpos : 0 < (escape c).length := by unfold escape; split_ifs <;> simp
    rw [List.flatMap_cons, List.length_append, List.length_cons]
    omega

theorem takes_textRest (s : String) : Takes textRest (s.toList.flatMap escape ++ ['"']) s := by
  refine .budget fun n hn ↦ ?_
  have hlength := length_le_flatMap_escape s.toList
  rw [List.length_append, List.length_singleton] at hn
  have htext := (takes_characters s.toList [] (n := n) (by omega)).map String.ofList
  rwa [List.reverse_nil, List.nil_append, String.ofList_toList] at htext

theorem takes_textAs {gap : List Char} (hgap : IsGap gap) (s expected : String) :
    Takes (textAs expected) (gap ++ quote s) s := by
  refine .valueStart hgap (by decide) ?_
  rw [if_pos rfl]
  exact (takes_textRest s).skip '"'

/-! ## What readers yield -/

section Yields

variable {r : Reader α} {f : α → Reader β} {P : α → Prop} {Q : β → Prop} {a : α}

/-- Whatever is read has a property. -/
def Yields (r : Reader α) (P : α → Prop) : Prop := ∀ c a c', r c = .ok (a, c') → P a

theorem yields_fail (p : Problem) : Yields (fail p) P := fun _ _ _ h ↦ by cases h

theorem yields_failNext (p : Problem) : Yields (failNext p) P := fun _ _ _ h ↦ by cases h

namespace Yields

theorem pure (h : P a) : Yields (Pure.pure a) P := fun _ _ _ hread ↦ by
  cases hread
  exact h

theorem bind (h : Yields r P) (hf : ∀ a, P a → Yields (f a) Q) : Yields (r >>= f) Q := by
  intro c b c' hread
  change (r c >>= fun p ↦ f p.1 p.2) = .ok (b, c') at hread
  cases hfirst : r c with
  | error e =>
    rw [hfirst] at hread
    cases hread
  | ok p =>
    rw [hfirst] at hread
    exact hf p.1 (h c p.1 p.2 hfirst) p.2 b c' hread

/-- What comes first does not matter. -/
theorem after (hf : ∀ a, Yields (f a) Q) : Yields (r >>= f) Q :=
  bind (P := fun _ ↦ True) (fun _ _ _ _ ↦ trivial) fun a _ ↦ hf a

theorem map {g : α → β} (h : ∀ a, Q (g a)) : Yields (g <$> r) Q := by
  rw [map_eq_pure_bind]
  exact .after fun a ↦ .pure (h a)

end Yields

theorem yields_wrongType (expected : String) : Yields (wrongType expected) P := by
  refine .after fun c ↦ ?_
  split
  case h_1 | h_2 | h_3 => exact .after fun _ ↦ .after fun _ ↦ yields_fail _
  case h_4 | h_5 => exact .after fun _ ↦ .after fun _ ↦ yields_fail _
  case h_6 | h_7 => exact yields_fail _
  case h_8 =>
    split
    · exact .after fun _ ↦ yields_fail _
    · exact yields_failNext _

section Records

variable {ρ : Type} {s : Shape ρ} {P : ρ → Prop}
  (hkeeps : ∀ f ∈ s.fields, ∀ record, P record → Yields (f.read record) P)

include hkeeps

theorem yields_positional {fs : List (Field ρ)} (hfs : ∀ f ∈ fs, f ∈ s.fields) (count : Nat)
    {record : ρ} (h : P record) : Yields (positional s fs count record) P := by
  induction fs generalizing count record with
  | nil => exact .after fun _ ↦ .pure h
  | cons f fs ih =>
    obtain ⟨hf, hrest⟩ := List.forall_mem_cons.1 hfs
    refine .after fun more ↦ ?_
    split
    · exact .bind (hkeeps f hf record h) fun record' h' ↦ ih hrest (count + 1) h'
    · refine .after fun _ ↦ ?_
      split
      · exact .pure h
      · exact yields_fail _

theorem yields_fields (n : Nat) (seen : List String) (isFirst : Bool) {record : ρ}
    (h : P record) : Yields (fields s n seen isFirst record) P := by
  induction n generalizing seen isFirst record with
  | zero => exact yields_fail _
  | succ n ih =>
    refine .after fun more ↦ ?_
    split
    · refine .after fun _ ↦ .after fun name ↦ ?_
      split
      next f hf =>
        split
        · refine .after fun next ↦ ?_
          split
          · exact .after fun _ ↦ yields_fail _
          · exact yields_fail _
        · refine .after fun _ ↦ .bind (hkeeps f (List.mem_of_find?_eq_some hf) record h) ?_
          exact fun record' h' ↦ ih _ _ h'
      next => exact .after fun _ ↦ .after fun _ ↦ ih _ _ h
    · refine .after fun _ ↦ ?_
      split
      · exact yields_fail _
      · exact .pure h

/-- A record has a property that it starts with and that no field takes away. -/
theorem yields_record (hstart : P s.start) : Yields (record s) P := by
  refine .after fun c ↦ ?_
  split
  · exact .after fun _ ↦ yields_positional hkeeps (fun _ h ↦ h) 0 hstart
  · exact .after fun _ ↦ .after fun n ↦ yields_fields hkeeps n [] true hstart
  · exact yields_wrongType _

end Records

theorem Yields.of_run (h : Yields r P) {c : Cursor} (hread : (r.run c).map Prod.fst = .ok a) :
    P a := by
  cases hrun : r.run c with
  | error e =>
    rw [hrun] at hread
    cases hread
  | ok p =>
    rw [hrun] at hread
    exact Except.ok.inj hread ▸ h c p.1 p.2 hrun

/-- What is read off a whole text. -/
theorem Yields.of_read (h : Yields r P) {text : String} (hread : read r text = .ok a) : P a := by
  refine of_run (h.bind fun a ha ↦ .after fun next ↦ ?_) hread
  split
  · exact .after fun _ ↦ .pure ha
  · exact .pure ha

end Yields

end StyleModules.Json.Reader
