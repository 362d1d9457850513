import StyleModules.Css.Failure
import StyleModules.Path

/-!
# Faults

Everything that can go wrong, by cause.  A fault tells what happened in one line, and a fault that
was met on the way to something else remembers what that was.
-/

namespace StyleModules

/-- The ways in which a file operation can fail. -/
inductive FileProblem where
  | notFound
  | alreadyExists
  | isDirectory
  | notDirectory
  | invalidInput
  | invalidData
  | busy
  | other
deriving DecidableEq, Inhabited, Repr

/-- A cause of failure. -/
inductive Fault where
  /-- A file holds no style sheet. -/
  | unreadable (file : Path) (failure : Css.Failure)
  /-- A referenced file does not exist. -/
  | unresolved (source : Path) (reference : String) (resolved : Path)
  | noPublicDirectory (source : Path)
  | noOutputDirectory
  | badConfiguration (file : Path) (text : String)
  | untracked (file : Path)
  /-- The dependents of a file reach too far. -/
  | tooDeep (file : Path) (limit : Nat)
  /-- References lead from a file to ever new names. -/
  | endless (file : Path)
  | storage (problem : FileProblem) (text : String)
  /-- A text is not the JSON it should be. -/
  | malformed (text : String)
  | plain (text : String)
  /-- What was being done when the cause showed. -/
  | during (text : String) (cause : Fault)
deriving DecidableEq, Inhabited, Repr

namespace Fault

/-- What happened, without the causes behind it. -/
def message : Fault → String
  | unreadable file failure => "Failed to parse " ++ file.text ++ ": " ++ failure.message file.text
  | unresolved source reference resolved =>
    "File cannot be found\n\nFrom: " ++ source.text ++ "\nFile: " ++ reference
      ++ "\nResolved to: " ++ resolved.text
  | noPublicDirectory source =>
    "Public directory not set (while processing " ++ source.text ++ ")"
  | noOutputDirectory => "Output directory not set"
  | badConfiguration file text =>
    "Failed to load configuration from " ++ file.text ++ ": " ++ text
  | untracked file => "File is not tracked: " ++ file.text
  | tooDeep file limit =>
    "Dependents of " ++ file.text ++ " are more than " ++ toString limit ++ " levels deep"
  | endless file => "References of " ++ file.text ++ " never end"
  | storage _ text => text
  | malformed text => text
  | plain text => text
  | during text _ => text

/-- What happened, followed by the causes behind it. -/
def messages : Fault → List String
  | during text cause => text :: cause.messages
  | fault => [fault.message]

def report (f : Fault) : String := ": ".intercalate f.messages

/-- The cause behind everything. -/
def root : Fault → Fault
  | during _ cause => cause.root
  | fault => fault

end Fault

end StyleModules
