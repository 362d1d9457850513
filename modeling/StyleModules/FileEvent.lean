import StyleModules.Json
import StyleModules.Json.Decode
import StyleModules.Path

/-!
# File events

What happened to a file since the last build.
-/

namespace StyleModules

/-- What happened to a file. -/
inductive FileChange where
  /-- The file was there when the session started. -/
  | init
  | add
  | change
  | unlink
deriving DecidableEq, Inhabited, Repr

/-- A file to which something happened. -/
structure FileEvent where
  change : FileChange
  file : Path
deriving DecidableEq, Inhabited, Repr

namespace FileChange

def known : List (String × FileChange) :=
  [("init", init), ("add", add), ("change", change), ("unlink", unlink)]

def name : FileChange → String
  | init => "init"
  | add => "add"
  | change => "change"
  | unlink => "unlink"

end FileChange

namespace FileEvent

def toJson (e : FileEvent) : Json :=
  .object [("kind", .text e.change.name), ("file", .object [("path", .text e.file.text)])]

open Json.Reader in
def fileShape : Shape Path where
  name := "SourceFile"
  start := ⟨""⟩
  fields := [⟨"path", true, fun _ ↦ path⟩]
  isOpen := false

open Json.Reader in
def shape : Shape FileEvent where
  name := "FileEvent"
  start := ⟨.init, ⟨""⟩⟩
  fields := [
    ⟨"kind", true, fun e ↦ return { e with change := ← variant FileChange.known }⟩,
    ⟨"file", true, fun e ↦ return { e with file := ← record fileShape }⟩]
  isOpen := false

def reader : Json.Reader FileEvent := Json.Reader.record shape

end FileEvent

end StyleModules
