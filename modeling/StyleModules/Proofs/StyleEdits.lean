import StyleModules.Proofs.Classes
import StyleModules.Proofs.RulePositions
import StyleModules.Stylesheet

/-!
# Edits of style rules

An edit is told by what it does to one style rule.  It reaches the style rules in the blocks that a
walk goes on to, at any depth; whatever else stands in a stylesheet stays as it is.  The style rules
that it reaches are those that stand in the stylesheet in this sense.
-/

namespace StyleModules

namespace Css.Rule

variable {R : Style → Style → Prop} {f : Style → Style} {style : Style}

/-- The same rule but for the style rules that a walk meets in it, each of which is edited. -/
inductive Edited (R : Style → Style → Prop) : Rule → Rule → Prop
  | statement (s : Statement) : Edited R (.statement s) (.statement s)
  | style {selectors selectors' : List Selector} {declarations declarations' : Declarations}
      {children children' : List Rule}
      (hstyle : R ⟨selectors, declarations⟩ ⟨selectors', declarations'⟩)
      (hchildren : List.Forall₂ (Edited R) children children') :
      Edited R (.block (.style selectors declarations) children)
        (.block (.style selectors' declarations') children')
  | group {head : Head} (hentered : head.IsEntered)
      (hhead : ∀ selectors declarations, head ≠ .style selectors declarations)
      {children children' : List Rule} (hchildren : List.Forall₂ (Edited R) children children') :
      Edited R (.block head children) (.block head children')
  | apart {head : Head} (hentered : ¬ head.IsEntered) (children : List Rule) :
      Edited R (.block head children) (.block head children)

mutual

theorem edited_iff (hR : ∀ s s', R s s' ↔ f s = s') :
    ∀ r r' : Rule, Edited R r r' ↔ r.mapStyles f = r'
  | .statement s, r' => by
    constructor
    · intro h
      cases h
      rfl
    · rintro rfl
      exact .statement s
  | .block head children, r' => by
    have hinner := forall₂_edited_iff hR children
    cases hhead : head with
    | style selectors declarations =>
      constructor
      · intro h
        cases h with
        | style hstyle hchildren =>
          rw [mapStyles, (hR _ _).1 hstyle, (hinner _).1 hchildren]
        | group _ hhead _ => exact absurd rfl (hhead _ _)
        | apart hentered _ => exact absurd (.style _ _) hentered
      · rintro rfl
        exact .style ((hR _ _).2 rfl) ((hinner _).2 rfl)
    | startingStyle | scopes =>
      constructor
      · intro h
        cases h with
        | group hentered _ _ => cases hentered
        | apart => rfl
      · rintro rfl
        exact .apart (Head.isWalked_eq_false_iff.1 rfl) children
    | media | supports | layer | container | mozDocument =>
      constructor
      · intro h
        cases h with
        | group _ _ hchildren => exact congrArg (Rule.block _) ((hinner _).1 hchildren)
        | apart hentered _ => exact absurd (by constructor) hentered
      · rintro rfl
        exact .group (by constructor) (by simp) ((hinner _).2 rfl)

theorem forall₂_edited_iff (hR : ∀ s s', R s s' ↔ f s = s') :
    ∀ rules rules' : List Rule,
      List.Forall₂ (Edited R) rules rules' ↔ mapStylesOfAll f rules = rules'
  | [], rules' => forall₂_nil_iff_eq rules'
  | r :: rules, rules' =>
    forall₂_cons_iff_eq (edited_iff hR r) (forall₂_edited_iff hR rules) rules'

end

/-- A style rule stands in a rule: it is the rule, or it stands in a rule inside that a walk goes on
to. -/
inductive HasStyle (style : Style) : Rule → Prop
  | here (children : List Rule) :
      HasStyle style (.block (.style style.selectors style.declarations) children)
  | inside {head : Head} {children : List Rule} {r : Rule} (hentered : head.IsEntered)
      (hr : r ∈ children) (h : HasStyle style r) : HasStyle style (.block head children)

mutual

theorem mem_styles_iff : ∀ r : Rule, style ∈ r.styles ↔ r.HasStyle style
  | .statement s => iff_of_false List.not_mem_nil nofun
  | .block head children => by
    have hinner := mem_stylesOfAll_iff children
    cases hhead : head with
    | style selectors declarations =>
      rw [styles, List.mem_cons, hinner]
      constructor
      · rintro (rfl | ⟨r, hr, h⟩)
        · exact .here children
        · exact .inside (.style _ _) hr h
      · intro h
        cases h with
        | here => exact .inl rfl
        | inside _ hr h => exact .inr ⟨_, hr, h⟩
    | startingStyle | scopes =>
      refine iff_of_false List.not_mem_nil fun h ↦ ?_
      cases h with
      | inside hentered _ _ => cases hentered
    | media | supports | layer | container | mozDocument =>
      refine hinner.trans ⟨fun ⟨r, hr, h⟩ ↦ .inside (by constructor) hr h, fun h ↦ ?_⟩
      cases h with
      | inside _ hr h => exact ⟨_, hr, h⟩

theorem mem_stylesOfAll_iff : ∀ rules : List Rule,
    style ∈ stylesOfAll rules ↔ ∃ r ∈ rules, r.HasStyle style
  | [] => by simp [stylesOfAll]
  | r :: rules => by
    simp [stylesOfAll, mem_styles_iff r, mem_stylesOfAll_iff rules]

end

end Css.Rule

section Edited

variable {R : Css.Rule.Style → Css.Rule.Style → Prop} {f : Css.Rule.Style → Css.Rule.Style}

/-- The same chunk but for its style rules, each of which is edited. -/
structure StyleChunk.Edited (R : Css.Rule.Style → Css.Rule.Style → Prop) (c c' : StyleChunk) :
    Prop where
  file : c'.file = c.file
  comments : c'.sheet.comments = c.sheet.comments
  rules : List.Forall₂ (Css.Rule.Edited R) c.sheet.rules c'.sheet.rules

/-- The same stylesheet but for its style rules, each of which is edited. -/
structure Stylesheet.Edited (R : Css.Rule.Style → Css.Rule.Style → Prop) (s s' : Stylesheet) :
    Prop where
  source : s'.source = s.source
  chunks : List.Forall₂ (StyleChunk.Edited R) s.chunks s'.chunks

theorem StyleChunk.edited_iff (hR : ∀ s s', R s s' ↔ f s = s') (c c' : StyleChunk) :
    c.Edited R c' ↔ c.mapRules (Css.Rule.mapStylesOfAll f) = c' := by
  obtain ⟨file, comments, rules⟩ := c
  obtain ⟨file', comments', rules'⟩ := c'
  constructor
  · rintro ⟨rfl, rfl, hrules⟩
    rw [StyleChunk.mapRules, (Css.Rule.forall₂_edited_iff hR _ _).1 hrules]
  · intro h
    injection h with hfile hsheet
    injection hsheet with hcomments hrules
    exact ⟨hfile.symm, hcomments.symm, (Css.Rule.forall₂_edited_iff hR _ _).2 hrules⟩

/-- If a style rule can be edited in one way only, so can a stylesheet. -/
theorem Stylesheet.edited_iff (hR : ∀ s s', R s s' ↔ f s = s') {s s' : Stylesheet} :
    s.Edited R s' ↔ s.mapChunks (StyleChunk.mapRules (Css.Rule.mapStylesOfAll f)) = s' := by
  have hchunks := forall₂_iff_map_eq (StyleChunk.edited_iff hR)
  obtain ⟨source, chunks⟩ := s
  obtain ⟨source', chunks'⟩ := s'
  constructor
  · rintro ⟨rfl, h⟩
    exact congrArg (Stylesheet.mk _) ((hchunks _ _).1 h)
  · intro h
    injection h with hsource hrest
    exact ⟨hsource.symm, (hchunks _ _).2 hrest⟩

/-- A style rule stands in one of the chunks of a stylesheet. -/
def Stylesheet.HasStyle (s : Stylesheet) (style : Css.Rule.Style) : Prop :=
  ∃ c ∈ s.chunks, ∃ r ∈ c.sheet.rules, r.HasStyle style

theorem Stylesheet.mem_styles_iff {s : Stylesheet} {style : Css.Rule.Style} :
    style ∈ s.styles ↔ s.HasStyle style := by
  simp only [styles, List.mem_flatMap, StyleChunk.styles, Css.Rule.mem_stylesOfAll_iff, HasStyle]

end Edited

end StyleModules
