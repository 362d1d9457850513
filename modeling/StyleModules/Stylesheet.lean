import StyleModules.Css.Minify
import StyleModules.Fault

/-!
# Stylesheets

A stylesheet is a list of chunks, one for each file that gave rules to it.  A chunk remembers the
file it was written in, also when it was moved into another stylesheet.
-/

namespace StyleModules

/-- The rules that were written in one file, if they come from a file. -/
structure StyleChunk where
  file : Option Path
  sheet : Css.Sheet
deriving Inhabited, Repr

/-- The chunks that make up a file, or a bundle of files. -/
structure Stylesheet where
  /-- The file that is compiled, or the place of the bundle. -/
  source : Path
  chunks : List StyleChunk
deriving Inhabited, Repr

namespace StyleChunk

def read (file : Option Path) (code : String) : Except Fault StyleChunk :=
  match Css.Sheet.read code with
  | .ok sheet => .ok ⟨file, sheet⟩
  | .error failure => .error (.unreadable (file.getD ⟨""⟩) failure)

def code (c : StyleChunk) : String := c.sheet.write .spaced

/-- Nothing is written in the chunk, not even a licence comment. -/
def isEmpty (c : StyleChunk) : Bool := c.sheet.comments.isEmpty && c.sheet.rules.isEmpty

def mapRules (f : List Css.Rule → List Css.Rule) (c : StyleChunk) : StyleChunk :=
  { c with sheet := { c.sheet with rules := f c.sheet.rules } }

def styles (c : StyleChunk) : List Css.Rule.Style := Css.Rule.stylesOfAll c.sheet.rules

end StyleChunk

namespace Stylesheet

/-- Reads the contents of a file as a stylesheet of one chunk. -/
def read (source : Path) (code : String) : Except Fault Stylesheet :=
  (StyleChunk.read (some source) code).map (fun c ↦ ⟨source, [c]⟩)

def isEmpty (s : Stylesheet) : Bool := s.chunks.all StyleChunk.isEmpty

def mapChunks (f : StyleChunk → StyleChunk) (s : Stylesheet) : Stylesheet :=
  { s with chunks := s.chunks.map f }

def styles (s : Stylesheet) : List Css.Rule.Style := s.chunks.flatMap StyleChunk.styles

def rules (s : Stylesheet) : List Css.Rule := s.chunks.flatMap (fun c ↦ c.sheet.rules)

/-- Imports in front of all other rules, as they have to stand. -/
def importsFirst (rules : List Css.Rule) : List Css.Rule :=
  rules.filter Css.Rule.isImport ++ rules.filter (fun r ↦ !r.isImport)

def joined (s : Stylesheet) : Css.Sheet :=
  ⟨s.chunks.flatMap (fun c ↦ c.sheet.comments), importsFirst s.rules⟩

def css (s : Stylesheet) (minified : Bool) : String :=
  if minified then s.joined.minify.write .compact else s.joined.write .spaced

end Stylesheet

end StyleModules
