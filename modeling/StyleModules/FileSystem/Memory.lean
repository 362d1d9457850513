import StyleModules.FileSystem.Tree

/-!
# File trees in memory

Paths are normalized before anything is looked up, so a path can lead through places that do not
exist.  Whatever is stored makes directories of all places above it.
-/

namespace StyleModules.FileTree.Memory

def putDirectories (t : FileTree) (places : List Path) : FileTree :=
  places.foldl (fun t p ↦ t.put p .directory) t

/-- Changes the directory that relative paths are seen from; it need not exist. -/
def setWorkingDirectory (t : FileTree) (p : Path) : FileTree :=
  { t with workingDirectory := t.place p }

/-- Makes a directory of a place and of all places above it. -/
def createDirectory (t : FileTree) (p : Path) : FileTree :=
  putDirectories t (t.place p :: (t.place p).ancestors)

def directoryFault : Fault := .storage .invalidInput "Path is a directory"

def read (t : FileTree) (p : Path) : Except Fault ByteArray :=
  match t.entry? (t.place p) with
  | none => .error (.storage .notFound "File not found")
  | some (.file contents) => .ok contents
  | some .directory => .error directoryFault

def readText (t : FileTree) (p : Path) : Except Fault String := do
  match String.fromUTF8? (← read t p) with
  | some text => .ok text
  | none => .error (.storage .other "Unable to read file as string")

/-- Stores a file, unless there is a directory in its place. -/
def write (t : FileTree) (p : Path) (contents : ByteArray) : Except Fault FileTree :=
  if t.hasDirectory (t.place p) then .error directoryFault
  else .ok (putDirectories (t.put (t.place p) (.file contents)) (t.place p).ancestors)

def isStored (t : FileTree) (p : Path) : Bool := t.entries.contains (t.place p)

/-- Removes what is stored in a place, and tells whether there was anything. -/
def remove (t : FileTree) (p : Path) : FileTree × Bool :=
  ({ t with entries := t.entries.erase (t.place p) }, isStored t p)

def isFile (t : FileTree) (p : Path) : Bool := (t.contents? (t.place p)).isSome

def isDirectory (t : FileTree) (p : Path) : Bool := t.hasDirectory (t.place p)

/-- Stores some files in order; those that cannot be stored are left out. -/
def ofFiles (workingDirectory : Option Path) (files : List (Path × ByteArray)) : FileTree :=
  let start := match workingDirectory with
    | some d => setWorkingDirectory empty d
    | none => empty
  files.foldl (fun t f ↦ (write t f.1 f.2).toOption.getD t) start

end StyleModules.FileTree.Memory
