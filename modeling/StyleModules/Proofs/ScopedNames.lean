import Mathlib.Data.List.Chain
import StyleModules.Css.Escape
import StyleModules.Namer
import StyleModules.Proofs.Base36
import StyleModules.Proofs.Characters
import StyleModules.Proofs.Digest

/-!
# Scoped names

A scoped name is made from the digest of a file name with a class name behind it.  Where the one ends
and the other starts is not digested, so the classes of two files can be mistaken for each other, but
only if the name of one file goes on where that of the other ends.  Whatever is digested, the name
that is made from it is an identifier without two hyphens in a row, and so the class name in front of
it can be told in development.
-/

namespace StyleModules

theorem toList_loop (bytes : ByteArray) (i : Nat) (done : List UInt8) :
    ByteArray.toList.loop bytes i done = done.reverse ++ bytes.data.toList.drop i := by
  induction i, done using ByteArray.toList.loop.induct bytes with
  | case1 i done hi ih =>
    have hlt : i < bytes.data.toList.length := by simpa using hi
    rw [ByteArray.toList.loop, if_pos hi, ih, List.drop_eq_getElem_cons hlt]
    simp [ByteArray.get!, hi]
  | case2 i done hi =>
    have hle : bytes.data.toList.length ≤ i := by simpa using Nat.le_of_not_lt hi
    rw [ByteArray.toList.loop, if_neg hi, List.drop_eq_nil_of_le hle, List.append_nil]

theorem eq_of_toList_toUTF8 {s t : String} (h : s.toUTF8.toList = t.toUTF8.toList) : s = t := by
  have hbytes : ∀ bytes : ByteArray, bytes.toList = bytes.data.toList := fun bytes ↦ by
    rw [ByteArray.toList, toList_loop, List.reverse_nil, List.nil_append, List.drop_zero]
  rw [hbytes, hbytes] at h
  exact String.toByteArray_inj.1 (ByteArray.ext (Array.toList_inj.1 h))

namespace Namer

variable {file selector file' selector' : String}

/-! ## What is digested -/

def digested (file selector : String) : List UInt8 := (identity file selector).toUTF8.toList

theorem digested_eq_iff_append :
    digested file selector = digested file' selector' ↔ file ++ selector = file' ++ selector' :=
  ⟨eq_of_toList_toUTF8, fun h ↦ by rw [digested, digested, identity, identity, h]⟩

/-- The name of one file goes on where that of another one ends, and what is between them is the
start of a class name of the other file. -/
def Continues (file selector file' selector' : String) : Prop :=
  ∃ between : String, between ≠ "" ∧ file' = file ++ between ∧ selector = between ++ selector'

theorem Continues.digested_eq (h : Continues file selector file' selector') :
    digested file selector = digested file' selector' := by
  obtain ⟨between, -, rfl, rfl⟩ := h
  rw [digested_eq_iff_append, String.append_assoc]

theorem eq_or_continues_of_append {between : List Char}
    (hfile : file'.toList = file.toList ++ between)
    (hselector : selector.toList = between ++ selector'.toList) :
    (file = file' ∧ selector = selector') ∨ Continues file selector file' selector' := by
  cases between with
  | nil => exact .inl ⟨String.toList_inj.1 (by simpa using hfile.symm),
      String.toList_inj.1 (by simpa using hselector)⟩
  | cons c cs =>
    refine .inr ⟨String.ofList (c :: cs), ?_, ?_, ?_⟩
    · intro hempty
      simpa using congrArg String.toList hempty
    · exact String.toList_inj.1 (by simpa using hfile)
    · exact String.toList_inj.1 (by simpa using hselector)

/-- What stands in front of the first dot of a text. -/
theorem takeWhile_dot {front : List Char} (h : '.' ∉ front) (back : List Char) :
    (front ++ '.' :: back).takeWhile (· ≠ '.') = front := by
  have hall : ∀ c ∈ front, decide (c ≠ '.') = true := fun c hc ↦
    decide_eq_true fun heq ↦ h (heq ▸ hc)
  rw [List.takeWhile_append_of_pos hall, List.takeWhile_cons_of_neg (by simp), List.append_nil]

/-- Where two texts have the same ending with a dot in it, their last dots are as far from the end.
So one of them cannot be the other one with a text behind it that has no dot. -/
theorem dot_mem_of_append {stem stem' ending between : List Char} (hdot : '.' ∈ ending)
    (h : stem' ++ ending = stem ++ ending ++ between) (hne : between ≠ []) : '.' ∈ between := by
  by_contra hplain
  obtain ⟨front, back, hsplit, hfront⟩ := List.eq_append_cons_of_mem (List.mem_reverse.2 hdot)
  have hlong : '.' ∉ between.reverse ++ front := by simp [hplain, hfront]
  have hreverse : front ++ '.' :: (back ++ stem'.reverse) =
      (between.reverse ++ front) ++ '.' :: (back ++ stem.reverse) := by
    simpa [hsplit] using congrArg List.reverse h
  have hsame : front = between.reverse ++ front := by
    calc
      front = (front ++ '.' :: (back ++ stem'.reverse)).takeWhile (· ≠ '.') :=
        (takeWhile_dot hfront _).symm
      _ = ((between.reverse ++ front) ++ '.' :: (back ++ stem.reverse)).takeWhile (· ≠ '.') := by
        rw [hreverse]
      _ = between.reverse ++ front := takeWhile_dot hlong _
  exact hne (by simpa using hsame)

theorem Continues.dot_mem {ending : String} (h : Continues file selector file' selector')
    (hdot : '.' ∈ ending.toList) (hfile : ∃ stem, file = stem ++ ending)
    (hfile' : ∃ stem, file' = stem ++ ending) : '.' ∈ selector.toList := by
  obtain ⟨between, hne, rfl, rfl⟩ := h
  obtain ⟨stem, rfl⟩ := hfile
  obtain ⟨stem', hstem⟩ := hfile'
  have hlists : stem'.toList ++ ending.toList = stem.toList ++ ending.toList ++ between.toList := by
    simpa using congrArg String.toList hstem.symm
  have hmem := dot_mem_of_append hdot hlists fun hnil ↦ hne (String.toList_inj.1 hnil)
  rw [String.toList_append]
  exact List.mem_append_left _ hmem

/-- Two classes are told apart by what is digested, unless the name of one file goes on where that of
the other ends and the class of the other starts with what is between them.  Among files with the
same extension that takes a dot in a class name. -/
theorem digested_eq_iff (file selector file' selector' : String) :
    (digested file selector = digested file' selector' ↔
      (file = file' ∧ selector = selector') ∨ Continues file selector file' selector' ∨
        Continues file' selector' file selector) ∧
    ∀ ending : String, '.' ∈ ending.toList → (∃ stem, file = stem ++ ending) →
      (∃ stem, file' = stem ++ ending) → '.' ∉ selector.toList → '.' ∉ selector'.toList →
      digested file selector = digested file' selector' → file = file' ∧ selector = selector' := by
  have hiff : digested file selector = digested file' selector' ↔
      (file = file' ∧ selector = selector') ∨ Continues file selector file' selector' ∨
        Continues file' selector' file selector := by
    constructor
    · intro h
      have hlists := congrArg String.toList (digested_eq_iff_append.1 h)
      rw [String.toList_append, String.toList_append] at hlists
      rcases List.append_eq_append_iff.1 hlists with ⟨between, hfile, hselector⟩ |
        ⟨between, hfile, hselector⟩
      · exact (eq_or_continues_of_append hfile hselector).imp_right .inl
      · refine (eq_or_continues_of_append hfile hselector).imp (fun heq ↦ ?_) .inr
        exact ⟨heq.1.symm, heq.2.symm⟩
    · rintro (⟨rfl, rfl⟩ | h | h)
      · rfl
      · exact h.digested_eq
      · exact h.digested_eq.symm
  refine ⟨hiff, fun ending hdot hfile hfile' hplain hplain' h ↦ ?_⟩
  rcases hiff.1 h with heq | hcontinues | hcontinues
  · exact heq
  · exact absurd (hcontinues.dot_mem hdot hfile hfile') hplain
  · exact absurd (hcontinues.dot_mem hdot hfile' hfile) hplain'

/-- Files with the same extension and classes without a dot. -/
theorem digested_eq_iff_sample :
    '.' ∈ ".mcss".toList ∧ (∃ stem, "a.mcss" = stem ++ ".mcss") ∧
      (∃ stem, "lib/a.mcss" = stem ++ ".mcss") ∧ '.' ∉ "title".toList ∧ '.' ∉ "b-title".toList ∧
      digested "a.mcss" "title" ≠ digested "lib/a.mcss" "b-title" := by
  have hdot : '.' ∈ ".mcss".toList := by decide
  have hfile : ∃ stem, "a.mcss" = stem ++ ".mcss" := ⟨"a", by decide⟩
  have hfile' : ∃ stem, "lib/a.mcss" = stem ++ ".mcss" := ⟨"lib/a", by decide⟩
  have hplain : '.' ∉ "title".toList := by decide
  have hplain' : '.' ∉ "b-title".toList := by decide
  refine ⟨hdot, hfile, hfile', hplain, hplain', fun h ↦ ?_⟩
  have heq := (digested_eq_iff "a.mcss" "title" "lib/a.mcss" "b-title").2 ".mcss" hdot hfile hfile'
    hplain hplain' h
  exact absurd heq.1 (by decide)

/-- A class of one file is mistaken for a class of another file, whose name goes on with the start of
the class name.  If both files have the same extension, the class name contains it. -/
theorem digested_clash :
    (("a.mcss", "xy") ≠ ("a.mcssx", "y") ∧ digested "a.mcss" "xy" = digested "a.mcssx" "y") ∧
      ("a.mcss", "b.mcssx") ≠ ("a.mcssb.mcss", "x") ∧
      digested "a.mcss" "b.mcssx" = digested "a.mcssb.mcss" "x" := by
  decide +kernel

/-! ## The form of a name -/

/-- One digit at least, and at most as many as are given. -/
def AreDigits (most : Nat) (cs : List Char) : Prop :=
  0 < cs.length ∧ cs.length ≤ most ∧ ∀ c ∈ cs, Base36.IsDigit c

/-- A letter other than the last one, up to four digits and up to six digits, joined by hyphens. -/
def IsUnique (cs : List Char) : Prop :=
  ∃ letter second third, cs = letter :: '-' :: (second ++ '-' :: third) ∧
    ('a' ≤ letter ∧ letter ≤ 'y') ∧ AreDigits 4 second ∧ AreDigits 6 third

theorem areDigits_take {most : Nat} (hmost : 0 < most) (n : Nat) :
    AreDigits most ((Base36.numeral n).take most) := by
  refine ⟨?_, List.length_take_le _ _, fun c hc ↦ Base36.isDigit_of_mem_numeral
    (List.mem_of_mem_take hc)⟩
  have hpos : 0 < (Base36.numeral n).length := List.length_pos_iff.2 (Base36.numeral_ne_nil n)
  rw [List.length_take]
  exact Nat.lt_min.2 ⟨hmost, hpos⟩

/-- Three numbers as they are written in a name: the first one as a letter, and of the others the
leading digits. -/
def spell (first second third : Nat) : List Char :=
  Base36.numeral (first % 25 + 10) ++ '-' ::
    ((Base36.numeral second).take 4 ++ '-' :: (Base36.numeral third).take 6)

theorem isUnique_spell (first second third : Nat) : IsUnique (spell first second third) := by
  have hrest : first % 25 < 25 := Nat.mod_lt _ (by decide)
  refine ⟨Base36.digit (first % 25 + 10), _, _, ?_, Base36.isLetter_digit _ hrest,
    areDigits_take (by decide) second, areDigits_take (by decide) third⟩
  rw [spell, Base36.numeral_of_lt (by omega)]
  rfl

theorem isNameChar_of_isDigit {c : Char} (h : Base36.IsDigit c) :
    Css.Escape.isNameChar c = true := by
  have halphanum : c.isAlphanum = true := by
    rw [isAlphanum_iff, isAlpha_iff]
    rcases h with h | h
    · exact .inr (isDigit_iff.2 h)
    · exact .inl (.inr (isLower_iff.2 h))
  rw [Css.Escape.isNameChar, halphanum]
  rfl

theorem ne_hyphen_of_isDigit {c : Char} (h : Base36.IsDigit c) : c ≠ '-' := by
  rintro rfl
  exact absurd h (by decide)

theorem name_eq_self {cs : List Char} (h : ∀ c ∈ cs, Css.Escape.isNameChar c = true) :
    Css.Escape.name cs = cs := by
  induction cs with
  | nil => rfl
  | cons c cs ih =>
    obtain ⟨hc, hrest⟩ := List.forall_mem_cons.1 h
    rw [Css.Escape.name, List.flatMap_cons, Css.Escape.nameChar, if_pos hc]
    exact congrArg (c :: ·) (ih hrest)

/-- No hyphen stands in front of another one. -/
def Separated (cs : List Char) : Prop := cs.IsChain fun c d ↦ c = '-' → d ≠ '-'

theorem Separated.cons {c : Char} {cs : List Char} (h : Separated cs) (hc : c ≠ '-') :
    Separated (c :: cs) :=
  List.isChain_cons.2 ⟨fun _ _ hhyphen ↦ absurd hhyphen hc, h⟩

theorem Separated.append {digits cs : List Char} (h : Separated cs)
    (hdigits : ∀ c ∈ digits, Base36.IsDigit c) : Separated (digits ++ cs) := by
  induction digits with
  | nil => exact h
  | cons c digits ih =>
    obtain ⟨hc, hrest⟩ := List.forall_mem_cons.1 hdigits
    exact (ih hrest).cons (ne_hyphen_of_isDigit hc)

/-- Digits can be put between a hyphen and what follows. -/
theorem AreDigits.separated {most : Nat} {digits cs : List Char} (hdigits : AreDigits most digits)
    (h : Separated cs) : Separated ('-' :: (digits ++ cs)) := by
  refine List.isChain_cons.2 ⟨fun d hd _ ↦ ?_, h.append hdigits.2.2⟩
  obtain ⟨c, rest, rfl⟩ := List.exists_cons_of_length_pos hdigits.1
  obtain rfl : c = d := by simpa using hd
  exact ne_hyphen_of_isDigit (hdigits.2.2 c List.mem_cons_self)

namespace IsUnique

variable {cs : List Char}

theorem ne_nil (h : IsUnique cs) : cs ≠ [] := by
  obtain ⟨letter, second, third, rfl, -⟩ := h
  simp

theorem exists_letter (h : IsUnique cs) : ∃ letter rest, cs = letter :: rest ∧ letter ≠ '-' ∧
    letter.isDigit = false := by
  obtain ⟨letter, second, third, rfl, ⟨hletter, -⟩, -⟩ := h
  refine ⟨letter, _, rfl, ?_, ?_⟩
  · rintro rfl
    exact absurd hletter (by decide)
  · rw [Bool.eq_false_iff]
    intro hdigit
    have hnine : letter ≤ '9' := (isDigit_iff.1 hdigit).2
    exact absurd (Char.le_trans hletter hnine) (by decide)

theorem isDigit_or (h : IsUnique cs) : ∀ c ∈ cs, Base36.IsDigit c ∨ c = '-' := by
  obtain ⟨letter, second, third, rfl, hletter, hsecond, hthird⟩ := h
  have hlast : 'y' ≤ 'z' := by decide
  intro c hc
  simp only [List.mem_cons, List.mem_append] at hc
  rcases hc with rfl | rfl | hc | rfl | hc
  · exact .inl (.inr ⟨hletter.1, Char.le_trans hletter.2 hlast⟩)
  · exact .inr rfl
  · exact .inl (hsecond.2.2 c hc)
  · exact .inr rfl
  · exact .inl (hthird.2.2 c hc)

/-- A name that starts with a letter and goes on with digits and hyphens is written as it is. -/
theorem identifier_eq (h : IsUnique cs) : Css.Escape.identifier cs = cs := by
  have hchars : ∀ c ∈ cs, Css.Escape.isNameChar c = true := fun c hc ↦ by
    rcases h.isDigit_or c hc with hdigit | rfl
    · exact isNameChar_of_isDigit hdigit
    · rfl
  obtain ⟨letter, rest, rfl, hhyphen, hdigit⟩ := h.exists_letter
  have hplain : Css.Escape.identifier (letter :: rest) = Css.Escape.afterHyphen (letter :: rest) := by
    unfold Css.Escape.identifier
    split <;> simp_all
  rw [hplain, Css.Escape.afterHyphen, hdigit]
  exact name_eq_self hchars

theorem separated (h : IsUnique cs) : Separated cs := by
  obtain ⟨letter, rest, hcs, hhyphen, -⟩ := h.exists_letter
  obtain ⟨_, second, third, rfl, -, hsecond, hthird⟩ := h
  obtain ⟨rfl, -⟩ := List.cons.inj hcs
  have hlast : Separated ('-' :: (third ++ [])) := hthird.separated List.IsChain.nil
  rw [List.append_nil] at hlast
  exact (hsecond.separated hlast).cons hhyphen

end IsUnique

theorem Separated.not_double {cs : List Char} (h : Separated cs) : ¬ ['-', '-'] <:+: cs := by
  intro hdouble
  have hchain := List.IsChain.infix h hdouble
  exact (List.isChain_cons_cons.1 hchain).1 rfl rfl

/-- The class name can be told from what is in front of the last two hyphens in a row. -/
theorem eq_of_append_unique {front front' cs cs' : List Char} (hcs : IsUnique cs)
    (hcs' : IsUnique cs') (h : front ++ '-' :: '-' :: cs = front' ++ '-' :: '-' :: cs') :
    front = front' := by
  -- a longer front would put hyphens into the name behind it
  have hshort : ∀ {front front' cs cs' : List Char}, IsUnique cs → IsUnique cs' →
      ∀ between, front' = front ++ between →
        '-' :: '-' :: cs = between ++ '-' :: '-' :: cs' → front = front' := by
    intro front front' cs cs' hcs hcs' between hfront hrest
    match between, hrest with
    | [], _ => rw [hfront, List.append_nil]
    | [c], hrest =>
      obtain ⟨letter, rest, hcs, hhyphen, -⟩ := hcs.exists_letter
      have hletter : letter = '-' := by
        simp only [List.cons_append, List.nil_append, List.cons.injEq] at hrest
        rw [hcs] at hrest
        exact (List.cons.inj hrest.2.2).1
      exact absurd hletter hhyphen
    | c :: d :: between, hrest =>
      refine absurd ⟨between, cs', ?_⟩ hcs.separated.not_double
      simp only [List.cons_append, List.cons.injEq] at hrest
      simp [hrest.2.2]
  rcases List.append_eq_append_iff.1 h with ⟨between, hfront, hrest⟩ | ⟨between, hfront, hrest⟩
  · exact hshort hcs hcs' between hfront hrest
  · exact (hshort hcs' hcs between hfront hrest).symm

def digestOf (file selector : String) : Sha1.State := Sha1.digest (digested file selector)

/-- Three numbers that make up the first 80 bits of a digest, and are read from its first twenty
hexadecimal digits. -/
structure Reads (digest : Sha1.State) (first second third : Nat) : Prop where
  first : first = digest.window 0 8 ∧ Sha1.readHex? (digest.hex.take 2) = some first
  second : second = digest.window 8 32 ∧
    Sha1.readHex? ((digest.hex.drop 2).take 8) = some second
  third : third = digest.window 40 40 ∧
    Sha1.readHex? ((digest.hex.drop 10).take 10) = some third

/-- No digest is without these numbers. -/
theorem reads_window (digest : Sha1.State) :
    Reads digest (digest.window 0 8) (digest.window 8 32) (digest.window 40 40) where
  first := ⟨rfl, digest.readHex?_hex 0 2 (by decide) (by decide) (by decide)⟩
  second := ⟨rfl, digest.readHex?_hex 2 8 (by decide) (by decide) (by decide)⟩
  third := ⟨rfl, digest.readHex?_hex 10 10 (by decide) (by decide) (by decide)⟩

theorem Reads.unique_eq {digest : Sha1.State} {first second third : Nat}
    (h : Reads digest first second third) :
    unique digest = String.ofList (spell first second third) := by
  rw [h.first.1, h.second.1, h.third.1]
  simp [unique, segments, spell, List.intercalate, List.intersperse]

theorem name_of_isDevelopment {mode : BuildMode} (h : mode.isDevelopment = true)
    (file selector : String) : (Namer.mk mode).name file selector =
      selector ++ "--" ++ unique (digestOf file selector) := by
  simp [name, digestOf, digested, h]

/-- Three numbers are read from a digest, and the digits with which they are written make up a name,
which is an identifier that needs no escapes.  In development the class name stands in front of it,
and can be told. -/
theorem form_of_name (file selector : String) :
    (∃ first second third, Reads (digestOf file selector) first second third ∧
      IsUnique (spell first second third) ∧ spell first second third ≠ [] ∧
      Css.Escape.identifier (spell first second third) = spell first second third ∧
      ¬ ['-', '-'] <:+: spell first second third ∧
      ∀ mode : BuildMode, (Namer.mk mode).name file selector =
        if mode.isDevelopment then selector ++ "--" ++ String.ofList (spell first second third)
        else String.ofList (spell first second third)) ∧
    ∀ mode : BuildMode, mode.isDevelopment = true → ∀ file' selector' : String,
      (Namer.mk mode).name file selector = (Namer.mk mode).name file' selector' →
        selector = selector' := by
  constructor
  · have hreads := reads_window (digestOf file selector)
    have hform := isUnique_spell ((digestOf file selector).window 0 8)
      ((digestOf file selector).window 8 32) ((digestOf file selector).window 40 40)
    refine ⟨_, _, _, hreads, hform, hform.ne_nil, hform.identifier_eq,
      hform.separated.not_double, fun mode ↦ ?_⟩
    rw [← hreads.unique_eq]
    rfl
  · intro mode hmode file' selector' h
    have hreads := (reads_window (digestOf file selector)).unique_eq
    have hreads' := (reads_window (digestOf file' selector')).unique_eq
    rw [name_of_isDevelopment hmode, name_of_isDevelopment hmode, hreads, hreads'] at h
    have hlists := congrArg String.toList h
    simp only [String.toList_append, String.toList_ofList, List.append_assoc] at hlists
    exact String.toList_inj.1 (eq_of_append_unique (isUnique_spell _ _ _) (isUnique_spell _ _ _)
      hlists)

/-- Two classes with the same digest have the same name in a bundle, but not in development. -/
theorem form_of_name_sample :
    BuildMode.development.isDevelopment = true ∧
      (∃ cs, IsUnique cs ∧ Css.Escape.identifier cs = cs ∧ ¬ ['-', '-'] <:+: cs ∧
        (Namer.mk .production).name "a.mcss" "xy" = String.ofList cs ∧
        String.ofList cs = "s-u76c-b8rz8l") ∧
      digestOf "a.mcss" "xy" = digestOf "a.mcssx" "y" ∧
      (Namer.mk .development).name "a.mcss" "xy" ≠ (Namer.mk .development).name "a.mcssx" "y" := by
  have hmode : BuildMode.development.isDevelopment = true := rfl
  obtain ⟨⟨first, second, third, -, hform, -, hescaped, hdouble, hname⟩, hselector⟩ :=
    form_of_name "a.mcss" "xy"
  have hproduction : (Namer.mk .production).name "a.mcss" "xy" =
      String.ofList (spell first second third) := hname .production
  refine ⟨hmode, ⟨_, hform, hescaped, hdouble, hproduction, ?_⟩, by decide +kernel, fun h ↦ ?_⟩
  · rw [← hproduction]
    decide +kernel
  · exact absurd (hselector .development hmode "a.mcssx" "y" h) (by decide)

end Namer

end StyleModules
