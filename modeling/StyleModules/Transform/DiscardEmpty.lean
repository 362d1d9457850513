import StyleModules.Transform

/-!
# Discarding empty rules

Blocks in which nothing is left are removed, from the inside to the outside.
-/

namespace StyleModules.Transform.DiscardEmpty

/-- There is something in the rule, or it is of a kind that means something when empty. -/
def keeps : Css.Rule → Bool
  | .block (.style _ declarations) children => !declarations.isEmpty || !children.isEmpty
  | .block head children => !head.isWalked || !children.isEmpty
  | .statement (.fontFace properties) => !properties.isEmpty
  | .statement _ => true

def transform : Transform :=
  .ofEdit "mcss-discard-empty" (Stylesheet.mapChunks (StyleChunk.mapRules (Css.Rule.retain keeps)))

end StyleModules.Transform.DiscardEmpty
