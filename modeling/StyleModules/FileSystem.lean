import StyleModules.FileSystem.Disk
import StyleModules.FileSystem.Memory

/-!
# File systems

Where stylesheets are read from and bundles are written to.
-/

namespace StyleModules

/-- A place for files. -/
inductive FileSystem where
  | memory (tree : FileTree)
  | disk (tree : FileTree)
  /-- A place that holds no files and refuses every access for some reason. -/
  | refusing (reason : String)
deriving DecidableEq

namespace FileSystem

instance : Inhabited FileSystem := ⟨.memory .empty⟩

def tree : FileSystem → FileTree
  | memory t => t
  | disk t => t
  | refusing _ => .empty

def workingDirectory : FileSystem → Except Fault Path
  | memory t => .ok t.workingDirectory
  | disk t => .ok t.workingDirectory
  | refusing _ => .error (.storage .other "Not implemented: FileSystem::cwd")

def read : FileSystem → Path → Except Fault ByteArray
  | memory t, p => FileTree.Memory.read t p
  | disk t, p => FileTree.Disk.read t p
  | refusing reason, _ => .error (.storage .other reason)

def readText : FileSystem → Path → Except Fault String
  | memory t, p => FileTree.Memory.readText t p
  | disk t, p => FileTree.Disk.readText t p
  | refusing reason, _ => .error (.storage .other reason)

def isFile : FileSystem → Path → Bool
  | memory t, p => FileTree.Memory.isFile t p
  | disk t, p => FileTree.Disk.isFile t p
  | refusing _, _ => false

def isDirectory : FileSystem → Path → Bool
  | memory t, p => FileTree.Memory.isDirectory t p
  | disk t, p => FileTree.Disk.isDirectory t p
  | refusing _, _ => false

/-- Writes a file, with the fault if that failed. -/
def write : FileSystem → Path → ByteArray → FileSystem × Option Fault
  | memory t, p, contents =>
    match FileTree.Memory.write t p contents with
    | .ok written => (memory written, none)
    | .error fault => (memory t, some fault)
  | disk t, p, contents =>
    let (written, problem) := FileTree.Disk.write t p contents
    (disk written, problem.map FileTree.Disk.fault)
  | refusing reason, _, _ => (refusing reason, some (.storage .other reason))

/-- Makes a directory and those above it, with the fault if that failed. -/
def createDirectory : FileSystem → Path → FileSystem × Option Fault
  | memory t, p => (memory (FileTree.Memory.createDirectory t p), none)
  | disk t, p =>
    let (made, problem) := FileTree.Disk.createDirectory t p
    (disk made, problem.map FileTree.Disk.fault)
  | refusing reason, _ => (refusing reason, some (.storage .other "Not implemented"))

/-- The paths of all files in order. -/
def files (fs : FileSystem) : List Path := fs.tree.files

def writeText (fs : FileSystem) (p : Path) (text : String) : FileSystem × Option Fault :=
  fs.write p text.toUTF8

/-- A length that no chain of references reaches without coming back to itself: each of its links is
written somewhere in a file. -/
def chainLimit (fs : FileSystem) : Nat :=
  (fs.tree.contents.map (fun f ↦ f.2.size + 1)).foldr (· + ·) 0 + 1

end FileSystem

end StyleModules
