import StyleModules.Path

/-!
# Diagnostics

Messages for the user that do not stop the work.
-/

namespace StyleModules

/-- A message, with what is known of its origin. -/
structure Diagnostic where
  message : String
  /-- What gave the message, usually the name of a transform. -/
  origin : Option String
  file : Option Path
  hints : Option (List String)
deriving DecidableEq, Inhabited, Repr

namespace Diagnostic

/-- A message of which nothing else is known. -/
def ofMessage (message : String) : Diagnostic := ⟨message, none, none, none⟩

/-- The message behind the file it is about. -/
def text (d : Diagnostic) : String :=
  match d.file with
  | some file => file.text ++ ": " ++ d.message
  | none => d.message

/-- Each message on a line of its own. -/
def textOfAll (ds : List Diagnostic) : String := String.join (ds.map (fun d ↦ d.text ++ "\n"))

end Diagnostic

end StyleModules
