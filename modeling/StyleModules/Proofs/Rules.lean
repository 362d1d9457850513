import StyleModules.Css.Rule

/-!
# Laws of walks through rules

Changing references twice is the same as changing each of them by both functions, and a walk meets
the same style rules in the same order whether they are changed before or behind it.
-/

namespace StyleModules.Css

section References

variable (onQuoted onAddress onQuoted' onAddress' : String → String)

theorem Part.mapReferences_mapReferences (p : Part) :
    (p.mapReferences onQuoted onAddress).mapReferences onQuoted' onAddress' =
      p.mapReferences (onQuoted' ∘ onQuoted) (onAddress' ∘ onAddress) := by
  cases p with
  | token t => cases t <;> rfl
  | address text => rfl
  | color c => rfl

theorem Image.mapAddress_mapAddress (f g : String → String) (i : Image) :
    (i.mapAddress f).mapAddress g = i.mapAddress (g ∘ f) := by
  cases i <;> rfl

theorem FontSource.mapAddress_mapAddress (f g : String → String) (s : FontSource) :
    (s.mapAddress f).mapAddress g = s.mapAddress (g ∘ f) := by
  cases s <;> rfl

theorem Value.mapReferences_mapReferences (v : Value) :
    (v.mapReferences onQuoted onAddress).mapReferences onQuoted' onAddress' =
      v.mapReferences (onQuoted' ∘ onQuoted) (onAddress' ∘ onAddress) := by
  cases v with
  | parts list => simp [mapReferences, Part.mapReferences_mapReferences]
  | names list => simp [mapReferences, Part.mapReferences_mapReferences]
  | image i => simp [mapReferences, Image.mapAddress_mapAddress]
  | images list => simp [mapReferences, Image.mapAddress_mapAddress]
  | background layers => simp [mapReferences, Image.mapAddress_mapAddress]
  | sources list => simp [mapReferences, FontSource.mapAddress_mapAddress]
  | _ => rfl

theorem Declaration.mapReferences_mapReferences (d : Declaration) :
    (d.mapReferences onQuoted onAddress).mapReferences onQuoted' onAddress' =
      d.mapReferences (onQuoted' ∘ onQuoted) (onAddress' ∘ onAddress) := by
  simp [mapReferences, Value.mapReferences_mapReferences]

theorem Declarations.map_mapReferences (d : Declarations) :
    (d.map (Declaration.mapReferences onQuoted onAddress)).map
        (Declaration.mapReferences onQuoted' onAddress') =
      d.map (Declaration.mapReferences (onQuoted' ∘ onQuoted) (onAddress' ∘ onAddress)) := by
  simp [Declarations.map, Declaration.mapReferences_mapReferences]

theorem Statement.mapReferences_mapReferences (s : Statement) :
    (s.mapReferences onQuoted onAddress).mapReferences onQuoted' onAddress' =
      s.mapReferences (onQuoted' ∘ onQuoted) (onAddress' ∘ onAddress) := by
  cases s with
  | fontFace properties => simp [mapReferences, Declaration.mapReferences_mapReferences]
  | page selectors declarations => simp [mapReferences, Declarations.map_mapReferences]
  | keyframes keyword name frames => simp [mapReferences, Declarations.map_mapReferences]
  | other keyword prelude block =>
    simp [mapReferences, Function.comp_def, Part.mapReferences_mapReferences]
  | _ => rfl

theorem Head.mapReferences_mapReferences (h : Head) :
    (h.mapReferences onQuoted onAddress).mapReferences onQuoted' onAddress' =
      h.mapReferences (onQuoted' ∘ onQuoted) (onAddress' ∘ onAddress) := by
  cases h with
  | style selectors declarations => simp [mapReferences, Declarations.map_mapReferences]
  | _ => rfl

mutual

theorem Rule.mapReferences_mapReferences : ∀ r : Rule,
    (r.mapReferences onQuoted onAddress).mapReferences onQuoted' onAddress' =
      r.mapReferences (onQuoted' ∘ onQuoted) (onAddress' ∘ onAddress)
  | .statement s => congrArg Rule.statement (Statement.mapReferences_mapReferences _ _ _ _ s)
  | .block head children => by
    simp only [Rule.mapReferences, Head.mapReferences_mapReferences,
      Rule.mapReferencesOfAll_mapReferencesOfAll children]

theorem Rule.mapReferencesOfAll_mapReferencesOfAll : ∀ rules : List Rule,
    Rule.mapReferencesOfAll onQuoted' onAddress'
        (Rule.mapReferencesOfAll onQuoted onAddress rules) =
      Rule.mapReferencesOfAll (onQuoted' ∘ onQuoted) (onAddress' ∘ onAddress) rules
  | [] => rfl
  | r :: rules => by
    simp only [Rule.mapReferencesOfAll, Rule.mapReferences_mapReferences r,
      Rule.mapReferencesOfAll_mapReferencesOfAll rules]

end

end References

mutual

theorem Rule.styles_mapStyles (f : Rule.Style → Rule.Style) : ∀ r : Rule,
    (r.mapStyles f).styles = r.styles.map f
  | .statement s => rfl
  | .block head children => by
    have hchildren := Rule.stylesOfAll_mapStylesOfAll f children
    cases head <;> simp [Rule.mapStyles, Rule.styles, Head.isWalked, hchildren]

/-- A walk meets every style rule as it was changed. -/
theorem Rule.stylesOfAll_mapStylesOfAll (f : Rule.Style → Rule.Style) : ∀ rules : List Rule,
    Rule.stylesOfAll (Rule.mapStylesOfAll f rules) = (Rule.stylesOfAll rules).map f
  | [] => rfl
  | r :: rules => by
    rw [Rule.mapStylesOfAll, Rule.stylesOfAll, Rule.styles_mapStyles f r,
      Rule.stylesOfAll_mapStylesOfAll f rules, Rule.stylesOfAll, List.map_append]

end

end StyleModules.Css
