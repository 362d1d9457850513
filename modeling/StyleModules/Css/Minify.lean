import StyleModules.Css.Minify.Rules
import StyleModules.Css.Sheet

/-!
# Minifying a style sheet
-/

namespace StyleModules.Css.Sheet

/-- The style sheet with its rules merged where that changes nothing. -/
def minify (s : Sheet) : Sheet :=
  { s with rules := Minify.rules (Minify.depthOfAll s.rules + 1) s.rules }

end StyleModules.Css.Sheet
