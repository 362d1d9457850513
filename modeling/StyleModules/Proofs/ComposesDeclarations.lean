import StyleModules.Composes
import StyleModules.Proofs.Characters
import StyleModules.Proofs.Classes
import StyleModules.Proofs.StyleEdits

/-!
# Declarations of composed classes

The value of such a declaration is a list of names, with a source behind them or without one; every
other list of tokens is refused.

Each declaration has a site: the chunk and the rule it stands in, whether it is important, and its
number among its like.  Sites are ordered as declarations are written.  What is taken out of a
stylesheet is one entry for every site where such a declaration stands, in the order of the sites,
and nothing else about the stylesheet changes.
-/

namespace StyleModules

/-- The tokens that say where composed classes come from. -/
def ClassSource.tokens : ClassSource → List Css.ValueToken
  | here => []
  | everywhere => [.word "from", .word "global"]
  | file reference => [.word "from", .quoted reference]

namespace ComposedNames

/-- The tokens are names, none of them the word that stands in front of a source, and then the
source if there is one. -/
structure IsSpelledBy (c : ComposedNames) (tokens : List Css.ValueToken) : Prop where
  names_ne_nil : c.names ≠ []
  not_mem : "from" ∉ c.names
  tokens_eq : tokens = c.names.map .word ++ c.source.tokens

variable {tokens : List Css.ValueToken} {c : ComposedNames}

theorem source?_eq_some_iff {s : ClassSource} :
    source? tokens = some s ↔ s.tokens = .word "from" :: tokens := by
  unfold source?
  split
  next => cases s <;> simp [ClassSource.tokens]
  next reference => cases s <;> simp [ClassSource.tokens, eq_comm (a := reference)]
  next hglobal hquoted =>
    cases s with
    | here => simp [ClassSource.tokens]
    | everywhere => simpa [ClassSource.tokens, eq_comm] using hglobal
    | file reference => simpa [ClassSource.tokens, eq_comm] using hquoted reference

/-- Names are read up to the word that no name can be; what follows has to be a source. -/
theorem ofTokens?_eq_some_iff (tokens : List Css.ValueToken) (c : ComposedNames) :
    ofTokens? tokens = some c ↔
      "from" ∉ c.names ∧ tokens = c.names.map .word ++ c.source.tokens := by
  obtain ⟨names, source⟩ := c
  fun_induction ofTokens? tokens generalizing names with
  | case1 =>
    cases names <;> cases source <;> simp [ClassSource.tokens]
  | case2 rest =>
    rw [Option.map_eq_some_iff]
    cases names with
    | nil => simp [source?_eq_some_iff, eq_comm (b := Css.ValueToken.word "from" :: rest)]
    | cons name names => simp +contextual [eq_comm]
  | case3 name rest hname ih =>
    rw [Option.map_eq_some_iff]
    cases names with
    | nil => cases source <;> simp_all [ClassSource.tokens]
    | cons first names =>
      constructor
      · rintro ⟨⟨names', source'⟩, hrest, heq⟩
        obtain ⟨⟨rfl, rfl⟩, rfl⟩ : (name = first ∧ names' = names) ∧ source' = source := by
          simpa using heq
        obtain ⟨hfrom, htokens⟩ := (ih names').1 hrest
        exact ⟨List.not_mem_cons_of_ne_of_not_mem (Ne.symm hname) hfrom, congrArg _ htokens⟩
      · rintro ⟨hfrom, htokens⟩
        obtain ⟨rfl, hrest⟩ : name = first ∧ rest = names.map .word ++ source.tokens := by
          simpa using htokens
        exact ⟨⟨names, source⟩, (ih names).2 ⟨List.not_mem_of_not_mem_cons hfrom, hrest⟩, rfl⟩
  | case4 tokens hnil hfrom hword =>
    cases names <;> cases source <;> simp_all [ClassSource.tokens]

theorem read?_eq_some_iff {value : String} :
    read? value = some c ↔ c.IsSpelledBy (Css.ValueToken.tokenize value) := by
  rw [read?, Option.filter_eq_some_iff, ofTokens?_eq_some_iff]
  constructor
  · rintro ⟨⟨hfrom, htokens⟩, hne⟩
    exact ⟨by simpa using hne, hfrom, htokens⟩
  · rintro ⟨hne, hfrom, htokens⟩
    exact ⟨⟨hfrom, htokens⟩, by simpa using hne⟩

/-- A value is understood exactly if its tokens are names, none of them the word in front of a
source, with one source or none behind them.  It stands for these names in their order and for that
source.  Any other value is refused. -/
theorem read?_iff_isSpelledBy (value : String) :
    (∀ c, read? value = some c ↔ c.IsSpelledBy (Css.ValueToken.tokenize value)) ∧
      (read? value = none ↔
        ∀ c : ComposedNames, ¬ c.IsSpelledBy (Css.ValueToken.tokenize value)) := by
  refine ⟨fun c ↦ read?_eq_some_iff, ?_⟩
  rw [Option.eq_none_iff_forall_ne_some]
  exact forall_congr' fun c ↦ not_congr read?_eq_some_iff

example : read? "a b from \"./other\"" = some ⟨["a", "b"], .file "./other"⟩ := by decide +kernel

end ComposedNames

/-! ## Sites -/

/-- Where a declaration of a style rule stands in a stylesheet. -/
structure Site where
  chunk : Nat
  /-- The position of the rule in its chunk. -/
  rule : List Nat
  important : Bool
  /-- How many declarations of the rule with the same importance stand in front of it. -/
  number : Nat
deriving DecidableEq, Inhabited, Repr

/-- The order in which declarations are written: those of a rule before those of the rules inside
it, and important ones behind all others of their rule. -/
def Site.Before (a b : Site) : Prop :=
  a.chunk < b.chunk ∨ a.chunk = b.chunk ∧ (a.rule < b.rule ∨ a.rule = b.rule ∧
    (a.important < b.important ∨ a.important = b.important ∧ a.number < b.number))

def Css.Declarations.those (d : Css.Declarations) (important : Bool) : List Css.Declaration :=
  if important then d.important else d.normal

namespace Stylesheet

def styleAt? (s : Stylesheet) (x : Site) : Option Css.Rule.Style :=
  s.chunks[x.chunk]?.bind fun c ↦ (Css.Rule.atOf? c.sheet.rules x.rule).bind Css.Rule.style?

def declarationAt? (s : Stylesheet) (x : Site) : Option Css.Declaration :=
  (s.styleAt? x).bind fun style ↦ (style.declarations.those x.important)[x.number]?

end Stylesheet

theorem pairwise_zipIdx {α : Type} (xs : List α) : xs.zipIdx.Pairwise fun a b ↦ a.2 < b.2 := by
  rw [← List.pairwise_map (f := Prod.snd) (R := (· < ·)), List.zipIdx_map_snd]
  exact List.pairwise_lt_range' 1

namespace Css.Rule.Style

/-- The declarations of a style rule as they are written, each with its importance and number. -/
def numbered (s : Style) : List ((Bool × Nat) × Declaration) :=
  s.declarations.normal.zipIdx.map (fun d ↦ ((false, d.2), d.1))
    ++ s.declarations.important.zipIdx.map (fun d ↦ ((true, d.2), d.1))

variable {s : Style}

theorem mem_numbered_iff {important : Bool} {n : Nat} {d : Declaration} :
    ((important, n), d) ∈ s.numbered ↔ (s.declarations.those important)[n]? = some d := by
  cases important <;>
    simp [numbered, Declarations.those, List.mem_zipIdx_iff_getElem?]

theorem map_snd_numbered (s : Style) : s.numbered.map Prod.snd = s.declarations.all := by
  have hnumber : ∀ (b : Bool) (ds : List Declaration),
      (ds.zipIdx.map fun d ↦ ((b, d.2), d.1)).map Prod.snd = ds := fun b ds ↦ by
    rw [List.map_map]
    exact List.zipIdx_map_fst 0 ds
  rw [numbered, List.map_append, hnumber, hnumber, Declarations.all]

theorem pairwise_numbered (s : Style) : s.numbered.Pairwise fun a b ↦
    a.1.1 < b.1.1 ∨ a.1.1 = b.1.1 ∧ a.1.2 < b.1.2 := by
  rw [numbered, List.pairwise_append, List.pairwise_map, List.pairwise_map]
  refine ⟨(pairwise_zipIdx _).imp fun h ↦ .inr ⟨rfl, h⟩,
    (pairwise_zipIdx _).imp fun h ↦ .inr ⟨rfl, h⟩, ?_⟩
  intro a ha b hb
  obtain ⟨d, -, rfl⟩ := List.mem_map.1 ha
  obtain ⟨e, -, rfl⟩ := List.mem_map.1 hb
  exact .inl rfl

end Css.Rule.Style

namespace Stylesheet

/-- The declarations of all style rules with their sites and rules. -/
def located (s : Stylesheet) : List (Site × Css.Rule.Style × Css.Declaration) :=
  s.chunks.zipIdx.flatMap fun c ↦ (Css.Rule.stylesMet c.1.sheet.rules).flatMap fun r ↦
    r.2.numbered.map fun d ↦ (⟨c.2, r.1, d.1.1, d.1.2⟩, r.2, d.2)

theorem mem_located_iff {s : Stylesheet} {x : Site} {style : Css.Rule.Style}
    {d : Css.Declaration} : (x, style, d) ∈ s.located ↔
      s.styleAt? x = some style ∧ (style.declarations.those x.important)[x.number]? = some d := by
  simp only [located, List.mem_flatMap, List.mem_map, styleAt?, Option.bind_eq_some_iff]
  constructor
  · rintro ⟨⟨c, n⟩, hc, ⟨way, style'⟩, hr, ⟨⟨important, number⟩, d'⟩, hd, heq⟩
    obtain ⟨rfl, rfl, rfl⟩ : (⟨n, way, important, number⟩ : Site) = x ∧ style' = style ∧ d' = d := by
      simpa using heq
    exact ⟨⟨c, List.mem_zipIdx_iff_getElem?.1 hc,
      Option.bind_eq_some_iff.1 (Css.Rule.mem_stylesMet_iff.1 hr)⟩,
      Css.Rule.Style.mem_numbered_iff.1 hd⟩
  · rintro ⟨⟨c, hc, hr⟩, hd⟩
    exact ⟨(c, x.chunk), List.mem_zipIdx_iff_getElem?.2 hc, (x.rule, style),
      Css.Rule.mem_stylesMet_iff.2 (Option.bind_eq_some_iff.2 hr), ((x.important, x.number), d),
      Css.Rule.Style.mem_numbered_iff.2 hd, rfl⟩

theorem pairwise_located (s : Stylesheet) : s.located.Pairwise fun a b ↦ a.1.Before b.1 := by
  rw [located, List.pairwise_flatMap]
  constructor
  · rintro ⟨c, n⟩ -
    rw [List.pairwise_flatMap]
    constructor
    · rintro ⟨way, style⟩ -
      exact List.pairwise_map.2 (style.pairwise_numbered.imp fun h ↦
        .inr ⟨rfl, .inr ⟨rfl, h⟩⟩)
    · refine (Css.Rule.pairwise_stylesMet c.sheet.rules).imp fun h x hx y hy ↦ ?_
      obtain ⟨d, -, rfl⟩ := List.mem_map.1 hx
      obtain ⟨e, -, rfl⟩ := List.mem_map.1 hy
      exact .inr ⟨rfl, .inl h⟩
  · refine (pairwise_zipIdx s.chunks).imp fun h x hx y hy ↦ ?_
    obtain ⟨r, -, hr⟩ := List.mem_flatMap.1 hx
    obtain ⟨t, -, ht⟩ := List.mem_flatMap.1 hy
    obtain ⟨d, -, rfl⟩ := List.mem_map.1 hr
    obtain ⟨e, -, rfl⟩ := List.mem_map.1 ht
    exact .inl h

theorem composes_eq_map_located (s : Stylesheet) :
    s.composes = (s.located.filter fun e ↦ Composes.isComposes e.2.2).map fun e ↦
      Composes.ofDeclaration (Css.Selector.localClasses e.2.1.selectors) e.2.2 := by
  have hstyle : ∀ (n : Nat) (r : List Nat × Css.Rule.Style),
      ((r.2.numbered.map fun d ↦ ((⟨n, r.1, d.1.1, d.1.2⟩ : Site), r.2, d.2)).filter
        fun e ↦ Composes.isComposes e.2.2).map (fun e ↦
          Composes.ofDeclaration (Css.Selector.localClasses e.2.1.selectors) e.2.2) =
        Composes.ofStyle r.2 := fun n r ↦ by
    rw [Composes.ofStyle, ← r.2.map_snd_numbered, List.filter_map, List.filter_map, List.map_map,
      List.map_map]
    rfl
  have hchunk : ∀ c : StyleChunk × Nat,
      ((Css.Rule.stylesMet c.1.sheet.rules).flatMap fun r ↦ Composes.ofStyle r.2) =
        c.1.styles.flatMap Composes.ofStyle := fun c ↦ by
    rw [StyleChunk.styles, ← Css.Rule.map_snd_stylesMet, List.flatMap_map]
  simp only [located, List.filter_flatMap, List.map_flatMap, hstyle, hchunk]
  rw [composes, styles, List.flatMap_assoc]
  conv_lhs => rw [← List.zipIdx_map_fst 0 s.chunks, List.flatMap_map]

end Stylesheet

/-! ## Entries -/

/-- The property of the declaration is `composes` in any mixture of small and capital letters. -/
def Css.Declaration.IsComposes (d : Css.Declaration) : Prop :=
  List.Forall₂ (fun c letter ↦ c = letter ∨ c = letter.toUpper) d.name.toList "composes".toList

theorem map_toLower_eq_iff {text : List Char} : ∀ {letters : List Char},
    (∀ x ∈ letters, x.isLower = true) → (text.map Char.toLower = letters ↔
      List.Forall₂ (fun c letter ↦ c = letter ∨ c = letter.toUpper) text letters) := by
  induction text with
  | nil => simp
  | cons c text ih =>
    rintro (_ | ⟨letter, letters⟩) h
    · simp
    · obtain ⟨hletter, hletters⟩ := List.forall_mem_cons.1 h
      rw [List.map_cons, List.cons.injEq, List.forall₂_cons, toLower_eq_iff hletter, ih hletters]

theorem Composes.isComposes_iff {d : Css.Declaration} :
    isComposes d = true ↔ d.IsComposes := by
  have hsmall : ∀ x ∈ "composes".toList, x.isLower = true := List.all_eq_true.1 (by decide)
  have hname : d.name.toLower.toList = d.name.toList.map Char.toLower := String.toList_map
  rw [isComposes, beq_iff_eq, propertyName, ← String.toList_inj, hname]
  exact map_toLower_eq_iff hsmall

/-- What is taken out for a declaration of a style rule: what it composes for the classes that occur
in the rule, or its value if that says nothing or no class occurs. -/
inductive Composes.IsEntry (style : Css.Rule.Style) (d : Css.Declaration) :
    Except String Composes → Prop
  | understood {targets : List String} {composed : ComposedNames} (hne : targets ≠ [])
      (hnodup : targets.Nodup)
      (htargets : ∀ name, name ∈ targets ↔ Css.Selector.HasClass name style.selectors)
      (hvalue : composed.IsSpelledBy (Css.ValueToken.tokenize (valueText d))) :
      IsEntry style d (.ok ⟨targets, composed⟩)
  | refused (h : (∀ name, ¬ Css.Selector.HasClass name style.selectors) ∨
      ∀ composed : ComposedNames,
        ¬ composed.IsSpelledBy (Css.ValueToken.tokenize (valueText d))) :
      IsEntry style d (.error (valueText d))

theorem Composes.isEntry_ofDeclaration (style : Css.Rule.Style) (d : Css.Declaration) :
    IsEntry style d (ofDeclaration (Css.Selector.localClasses style.selectors) d) := by
  unfold ofDeclaration
  split
  next composed hread =>
    split
    next hempty =>
      refine .refused (.inl fun name h ↦ ?_)
      rw [← Css.Selector.mem_localClasses_iff, List.isEmpty_iff.1 hempty] at h
      exact List.not_mem_nil h
    next hne =>
      exact .understood (fun h ↦ hne (List.isEmpty_iff.2 h)) (Css.Selector.nodup_localClasses _)
        (fun name ↦ Css.Selector.mem_localClasses_iff _) (ComposedNames.read?_eq_some_iff.1 hread)
  next hread =>
    exact .refused (.inr fun composed h ↦
      by simp [ComposedNames.read?_eq_some_iff.2 h] at hread)

/-! ## The stylesheet that is left -/

/-- Some declarations are left of others once those of composed classes are gone. -/
inductive Css.Declaration.AreLeft : List Css.Declaration → List Css.Declaration → Prop
  | nil : AreLeft [] []
  | other {d : Css.Declaration} {ds left : List Css.Declaration} (h : ¬ d.IsComposes)
      (hrest : AreLeft ds left) : AreLeft (d :: ds) (d :: left)
  | composes {d : Css.Declaration} {ds left : List Css.Declaration} (h : d.IsComposes)
      (hrest : AreLeft ds left) : AreLeft (d :: ds) left

theorem Css.Declaration.areLeft_iff : ∀ ds left : List Css.Declaration,
    AreLeft ds left ↔ ds.filter (fun d ↦ !Composes.isComposes d) = left
  | [], left => by
    constructor
    · intro h
      cases h
      rfl
    · rintro rfl
      exact .nil
  | d :: ds, left => by
    have hrest := areLeft_iff ds
    have hd := Composes.isComposes_iff (d := d)
    rw [List.filter_cons]
    split
    next hkeep =>
      have hother : ¬ d.IsComposes := fun h ↦ by simp [hd.2 h] at hkeep
      constructor
      · intro h
        cases h with
        | other _ h => rw [(hrest _).1 h]
        | composes h _ => exact absurd h hother
      · rintro rfl
        exact .other hother ((hrest _).2 rfl)
    next hkeep =>
      have hcomposes : d.IsComposes := hd.1 (by simpa using hkeep)
      constructor
      · intro h
        cases h with
        | other h _ => exact absurd hcomposes h
        | composes _ h => exact (hrest _).1 h
      · rintro rfl
        exact .composes hcomposes ((hrest _).2 rfl)

/-- The same style rule but for its declarations of composed classes, which are gone. -/
structure Css.Rule.Style.Stripped (s s' : Css.Rule.Style) : Prop where
  selectors : s'.selectors = s.selectors
  normal : Css.Declaration.AreLeft s.declarations.normal s'.declarations.normal
  important : Css.Declaration.AreLeft s.declarations.important s'.declarations.important

theorem Css.Rule.Style.stripped_iff (s s' : Css.Rule.Style) :
    s.Stripped s' ↔ Composes.strip s = s' := by
  obtain ⟨selectors, normal, important⟩ := s
  obtain ⟨selectors', normal', important'⟩ := s'
  constructor
  · rintro ⟨rfl, hnormal, himportant⟩
    rw [Composes.strip, Css.Declarations.filter, (Css.Declaration.areLeft_iff _ _).1 hnormal,
      (Css.Declaration.areLeft_iff _ _).1 himportant]
  · intro h
    injection h with hselectors hdeclarations
    injection hdeclarations with hnormal himportant
    exact ⟨hselectors.symm, (Css.Declaration.areLeft_iff _ _).2 hnormal,
      (Css.Declaration.areLeft_iff _ _).2 himportant⟩

namespace Stylesheet

theorem styleAt?_withoutComposes (s : Stylesheet) (x : Site) :
    s.withoutComposes.styleAt? x = (s.styleAt? x).map Composes.strip := by
  rw [styleAt?, styleAt?, withoutComposes, mapChunks, List.getElem?_map]
  cases s.chunks[x.chunk]? with
  | none => rfl
  | some c =>
    change ((Css.Rule.atOf? (Css.Rule.mapStylesOfAll _ _) _).bind _) = Option.map _
      ((Css.Rule.atOf? c.sheet.rules x.rule).bind _)
    rw [Css.Rule.atOf?_mapStylesOfAll]
    cases Css.Rule.atOf? c.sheet.rules x.rule with
    | none => rfl
    | some r => exact Css.Rule.style?_mapStyles r

theorem those_strip (style : Css.Rule.Style) (important : Bool) :
    (Composes.strip style).declarations.those important =
      (style.declarations.those important).filter fun d ↦ !Composes.isComposes d := by
  cases important <;> rfl

theorem isComposes_of_declarationAt?_withoutComposes {s : Stylesheet} {x : Site}
    {d : Css.Declaration} (h : s.withoutComposes.declarationAt? x = some d) :
    Composes.isComposes d = false := by
  rw [declarationAt?, styleAt?_withoutComposes, Option.bind_eq_some_iff] at h
  obtain ⟨style, hstyle, hd⟩ := h
  obtain ⟨old, -, rfl⟩ := Option.map_eq_some_iff.1 hstyle
  have hmem := List.mem_of_getElem? hd
  rw [those_strip, List.mem_filter] at hmem
  simpa using hmem.2

theorem declarationAt?_of_mem_located {s : Stylesheet} {e : Site × Css.Rule.Style × Css.Declaration}
    (he : e ∈ s.located) : s.declarationAt? e.1 = some e.2.2 := by
  obtain ⟨hstyle, hd⟩ := mem_located_iff.1 he
  rw [declarationAt?, hstyle]
  exact hd

/-- What is taken out of a stylesheet is one entry for each declaration of composed classes, in the
order these are written.  The stylesheet that is left is the one without these declarations, and
there is nothing to take out of it any more. -/
theorem composes_taken_out (s : Stylesheet) :
    (∃ sites : List Site, sites.Pairwise Site.Before ∧
      (∀ x, x ∈ sites ↔ ∃ d, s.declarationAt? x = some d ∧ d.IsComposes) ∧
      List.Forall₂ (fun x entry ↦ ∃ style d, s.styleAt? x = some style ∧
        s.declarationAt? x = some d ∧ Composes.IsEntry style d entry) sites s.composes) ∧
    (∀ s', s.Edited Css.Rule.Style.Stripped s' ↔ s' = s.withoutComposes) ∧
    (∀ x d, s.withoutComposes.declarationAt? x = some d → ¬ d.IsComposes) ∧
    s.withoutComposes.composes = [] := by
  let found := s.located.filter fun e ↦ Composes.isComposes e.2.2
  refine ⟨⟨found.map Prod.fst, ?_, fun x ↦ ?_, ?_⟩,
    fun s' ↦ (edited_iff Css.Rule.Style.stripped_iff).trans eq_comm,
    fun x d h hcomposes ↦ ?_, ?_⟩
  · exact List.pairwise_map.2 (s.pairwise_located.filter _)
  · constructor
    · intro hx
      obtain ⟨e, he, rfl⟩ := List.mem_map.1 hx
      obtain ⟨hmem, hcomposes⟩ := List.mem_filter.1 he
      exact ⟨e.2.2, declarationAt?_of_mem_located hmem, Composes.isComposes_iff.1 hcomposes⟩
    · rintro ⟨d, hd, hcomposes⟩
      obtain ⟨style, hstyle, hthose⟩ := Option.bind_eq_some_iff.1 hd
      exact List.mem_map.2 ⟨(x, style, d), List.mem_filter.2
        ⟨mem_located_iff.2 ⟨hstyle, hthose⟩, Composes.isComposes_iff.2 hcomposes⟩, rfl⟩
  · rw [composes_eq_map_located, List.forall₂_map_left_iff, List.forall₂_map_right_iff]
    refine List.forall₂_same.2 fun e he ↦ ?_
    have hmem := (List.mem_filter.1 he).1
    exact ⟨e.2.1, e.2.2, (mem_located_iff.1 hmem).1, declarationAt?_of_mem_located hmem,
      Composes.isEntry_ofDeclaration e.2.1 e.2.2⟩
  · have hnone := isComposes_of_declarationAt?_withoutComposes h
    rw [Composes.isComposes_iff.2 hcomposes] at hnone
    exact Bool.false_ne_true hnone.symm
  · rw [composes_eq_map_located, List.map_eq_nil_iff, List.filter_eq_nil_iff]
    intro e he
    rw [isComposes_of_declarationAt?_withoutComposes (declarationAt?_of_mem_located he)]
    exact Bool.false_ne_true

namespace Sample

/-- Two files.  In the first one a rule with two classes and a rule inside it compose others, the
inner one by an important declaration; in the second one a rule without classes does. -/
def composing : Stylesheet :=
  let names (words : List String) : Css.Value :=
    .parts ((words.map fun w ↦ Css.Part.token (.word w)).intersperse .blank)
  ⟨⟨"/a.mcss"⟩,
    [⟨some ⟨"/b.mcss"⟩, ⟨["!"], [.block (.media [])
        [.block (.style [[.className "a", .className "b"]]
            ⟨[⟨"color", .keyword "red"⟩, ⟨"Composes", names ["x", "y"]⟩], []⟩)
          [.block (.style [[.nesting, .className "a"]]
            ⟨[], [⟨"COMPOSES", names ["z", "from", "global"]⟩, ⟨"color", .keyword "red"⟩]⟩) []]]]⟩⟩,
      ⟨some ⟨"/a.mcss"⟩, ⟨[], [.block (.style [[.element "p"]]
        ⟨[⟨"composes", names ["x"]⟩], []⟩) []]⟩⟩]⟩

end Sample

theorem composes_taken_out_sample :
    Sample.composing.composes =
        [.ok ⟨["a", "b"], ["x", "y"], .here⟩, .ok ⟨["a"], ["z"], .everywhere⟩, .error "x"] ∧
      Sample.composing.Edited Css.Rule.Style.Stripped Sample.composing.withoutComposes ∧
      (∃ d, Sample.composing.withoutComposes.declarationAt? ⟨0, [0, 0, 0], true, 0⟩ = some d ∧
        ¬ d.IsComposes) ∧
      Sample.composing.withoutComposes.composes = [] := by
  obtain ⟨-, hedited, hnone, hempty⟩ := composes_taken_out Sample.composing
  have hleft : Sample.composing.withoutComposes.declarationAt? ⟨0, [0, 0, 0], true, 0⟩ =
      some ⟨"color", .keyword "red"⟩ := by decide +kernel
  exact ⟨by decide +kernel, (hedited _).2 rfl, ⟨_, hleft, hnone _ _ hleft⟩, hempty⟩

end Stylesheet

end StyleModules
