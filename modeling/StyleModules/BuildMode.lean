import StyleModules.Text.Lowercase

/-!
# Build modes

Development output is meant to be read: it is not minified and its class names start with the
names in the source.  Every other mode optimizes.
-/

namespace StyleModules

/-- The environment that a build is for. -/
inductive BuildMode where
  | development
  | production
  | other (name : String)
deriving DecidableEq, Repr

namespace BuildMode

instance : Inhabited BuildMode := ⟨production⟩

/-- Reads a mode; only the two exact names are special. -/
def ofName : String → BuildMode
  | "development" => development
  | "production" => production
  | name => other name

/-- The name of a mode as it is printed: any other mode in lower case. -/
def name : BuildMode → String
  | development => "development"
  | production => "production"
  | other name => Text.lowercase name

def isDevelopment : BuildMode → Bool
  | development => true
  | _ => false

end BuildMode

end StyleModules
