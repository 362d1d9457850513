import StyleModules.BuildMode
import StyleModules.Json
import StyleModules.Json.Decode

/-!
# Build modes as JSON

A mode is written as its name.
-/

namespace StyleModules.BuildMode

def toJson (m : BuildMode) : Json := .text m.name

/-- Reads a mode; any text is one. -/
def reader : Json.Reader BuildMode := ofName <$> Json.Reader.text

end StyleModules.BuildMode
