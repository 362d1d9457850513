import StyleModules.Diagnostic
import StyleModules.Json
import StyleModules.Json.Decode

/-!
# Diagnostics as JSON

A diagnostic is an object in which everything but the message can be missing.
-/

namespace StyleModules.Diagnostic

def toJson (d : Diagnostic) : Json :=
  .object [
    ("message", .text d.message),
    ("origin", .ofOption .text d.origin),
    ("file", .ofOption (fun p ↦ .text p.text) d.file),
    ("hints", .ofOption (fun hints ↦ .array (hints.map .text)) d.hints)]

def shape : Json.Reader.Shape Diagnostic where
  name := "Diagnostic"
  start := ⟨"", none, none, none⟩
  fields := [
    ⟨"message", true, fun d ↦ return { d with message := ← Json.Reader.text }⟩,
    ⟨"origin", false, fun d ↦ return { d with origin := ← Json.Reader.optional .text }⟩,
    ⟨"file", false, fun d ↦ return { d with file := ← Json.Reader.optional .path }⟩,
    ⟨"hints", false, fun d ↦ return { d with hints := ← Json.Reader.optional (.list .text) }⟩]
  isOpen := false

def listReader : Json.Reader (List Diagnostic) := Json.Reader.list (Json.Reader.record shape)

def listToJson (ds : List Diagnostic) : Json := .array (ds.map toJson)

end StyleModules.Diagnostic
