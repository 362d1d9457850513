import StyleModules.Fault
import StyleModules.Path.Map

/-!
# File trees

Files and directories by absolute path, with the directory that relative paths are seen from.
-/

namespace StyleModules

/-- What is stored at a path. -/
inductive Entry where
  | file (contents : ByteArray)
  | directory

instance : DecidableEq Entry
  | .file a, .file b =>
    match ByteArray.instDecidableEq a b with
    | isTrue h => isTrue (h ▸ rfl)
    | isFalse h => isFalse fun heq ↦ h (Entry.file.inj heq)
  | .directory, .directory => isTrue rfl
  | .file _, .directory => isFalse nofun
  | .directory, .file _ => isFalse nofun

/-- Files and directories by absolute normal path. -/
structure FileTree where
  entries : PathMap Entry
  workingDirectory : Path
deriving DecidableEq

namespace FileTree

/-- Nothing is stored, and relative paths are seen from the root. -/
def empty : FileTree := ⟨.empty, ⟨"/"⟩⟩

instance : Inhabited FileTree := ⟨empty⟩

/-- The absolute normal path of a place. -/
def place (t : FileTree) (p : Path) : Path := (t.workingDirectory.join p).normalize

def entry? (t : FileTree) (p : Path) : Option Entry := t.entries.get? p

/-- The contents of the file at an absolute normal path, if there is one. -/
def contents? (t : FileTree) (p : Path) : Option ByteArray :=
  match t.entry? p with
  | some (.file contents) => some contents
  | _ => none

def hasDirectory (t : FileTree) (p : Path) : Bool :=
  match t.entry? p with
  | some .directory => true
  | _ => false

def put (t : FileTree) (p : Path) (e : Entry) : FileTree :=
  { t with entries := t.entries.insert p e }

/-- All files with their contents, in the order of their paths. -/
def contents (t : FileTree) : List (Path × ByteArray) :=
  t.entries.toList.filterMap fun e ↦
    match e with
    | (p, .file contents) => some (p, contents)
    | (_, .directory) => none

def files (t : FileTree) : List Path := t.contents.map Prod.fst

end FileTree

end StyleModules
