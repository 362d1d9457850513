import StyleModules.FileSystem
import StyleModules.Resolver
import StyleModules.Transform

/-!
# Inlining imports

An import of a local stylesheet is replaced by the contents of that stylesheet, which become
chunks in front of the chunk that imports them.  Imports with conditions or layers, and those of
external stylesheets, stay.  Each file is inlined at most once, so cycles end.
-/

namespace StyleModules.Imports

/-- Where imported stylesheets come from. -/
structure Sources where
  files : FileSystem
  resolver : PathResolver

/-- What was inlined so far, and who imported it.  The file that is compiled counts as inlined. -/
structure Progress where
  inlined : List Path
  messages : List ImportMessage
deriving DecidableEq, Inhabited, Repr

/-- What a step leads to: the progress made, and chunks unless it failed. -/
abbrev Outcome := Progress × Except Fault (List StyleChunk)

def reference? : Css.Rule → Option String
  | .statement (.imported i) =>
    if i.isPlain && !Reference.isExternal i.address then some i.address else none
  | _ => none

/-- The references of a chunk that are inlined, in document order. -/
def references (c : StyleChunk) : List String := c.sheet.rules.filterMap reference?

def withoutReferences (c : StyleChunk) : StyleChunk :=
  c.mapRules (List.filter (fun r ↦ (reference? r).isNone))

def resolve (s : Sources) (file : Path) (reference : String) : Except Fault Path :=
  let directory := file.parent?.getD ⟨""⟩
  let resolved := (s.resolver.absolute reference directory (.stylesheet true)).getD
    (directory.join ⟨reference⟩).normalize
  if s.files.isFile resolved then .ok resolved
  else .error (.unresolved file reference resolved)

def readChunk (s : Sources) (file : Path) : Except Fault StyleChunk :=
  match s.files.readText file with
  | .error fault => .error (.during ("Failed to read imported stylesheet " ++ file.text) fault)
  | .ok code => StyleChunk.read (some file) code

/-- Inlines what a reference names, unless that was done before. -/
def pull (s : Sources) (expand : StyleChunk → Progress → Outcome) (file : Path)
    (reference : String) (p : Progress) : Outcome :=
  match resolve s file reference with
  | .error fault => (p, .error fault)
  | .ok resolved =>
    if resolved.isAmong p.inlined then (p, .ok [])
    else
      let met : Progress := { p with inlined := p.inlined ++ [resolved] }
      match readChunk s resolved with
      | .error fault => (met, .error fault)
      | .ok imported =>
        match expand imported met with
        | (q, .error fault) => (q, .error fault)
        | (q, .ok chunks) => ({ q with messages := q.messages ++ [⟨resolved, file⟩] }, .ok chunks)

/-- Makes steps one after the other until one fails, and joins their chunks. -/
def inOrder {α : Type} (step : α → Progress → Outcome) : List α → Progress → Outcome
  | [], p => (p, .ok [])
  | x :: xs, p =>
    match step x p with
    | (q, .error fault) => (q, .error fault)
    | (q, .ok chunks) =>
      match inOrder step xs q with
      | (r, .error fault) => (r, .error fault)
      | (r, .ok more) => (r, .ok (chunks ++ more))

/-- The chunks that a chunk becomes, itself last.  The number bounds the chain of imports. -/
def expand (s : Sources) : Nat → StyleChunk → Progress → Outcome
  | 0, c, p => (p, .error (.endless (c.file.getD ⟨""⟩)))
  | limit + 1, c, p =>
    match c.file with
    | none => (p, .ok [c])
    | some file =>
      match inOrder (pull s (expand s limit) file) (references c) p with
      | (q, .error fault) => (q, .error fault)
      | (q, .ok chunks) => (q, .ok (chunks ++ [withoutReferences c]))

/-- Inlines the imports of a stylesheet.  Messages about imports come back also on failure. -/
def inline (s : Sources) (sheet : Stylesheet) : List ImportMessage × Except Fault Stylesheet :=
  match inOrder (expand s s.files.chainLimit) sheet.chunks ⟨[sheet.source], []⟩ with
  | (p, .error fault) => (p.messages, .error fault)
  | (p, .ok chunks) => (p.messages, .ok { sheet with chunks := chunks })

end StyleModules.Imports
