import StyleModules.FileSystem.Tree

/-!
# File trees on a disk

Paths are followed step by step, so every place that a path leads through must be a directory.
A file is written next to its place and then moved there, after the directories above it were
made; it appears as a whole or not at all.
-/

namespace StyleModules.FileTree.Disk

def problemText : FileProblem → String
  | .notFound => "No such file or directory (os error 2)"
  | .alreadyExists => "File exists (os error 17)"
  | .isDirectory => "Is a directory (os error 21)"
  | .notDirectory => "Not a directory (os error 20)"
  | .busy => "Device or resource busy (os error 16)"
  | .invalidInput => "file name contained an unexpected NUL byte"
  | .invalidData => "stream did not contain valid UTF-8"
  | .other => "failed to create whole tree"

def fault (problem : FileProblem) : Fault := .storage problem (problemText problem)

def step (t : FileTree) (here : Path) (segment : List Char) : Except FileProblem Path :=
  match t.entry? here with
  | none => .error .notFound
  | some (.file _) => .error .notDirectory
  | some .directory =>
    if segment = [] ∨ segment = ['.'] then .ok here
    else if segment = ['.', '.'] then .ok (here.parent?.getD here)
    else .ok (here.join ⟨String.ofList segment⟩)

/-- Where a path leads to.  There need not be anything there. -/
def locate (t : FileTree) (p : Path) : Except FileProblem Path :=
  if p.text.isEmpty then .error .notFound
  else if p.text.toList.contains (Char.ofNat 0) then .error .invalidInput
  else
    let start : Path := if p.isAbsolute then ⟨"/"⟩ else t.workingDirectory
    (Path.segments p.text.toList).foldlM (step t) start

def find? (t : FileTree) (p : Path) : Option Entry :=
  match locate t p with
  | .ok q => t.entry? q
  | .error _ => none

def isFile (t : FileTree) (p : Path) : Bool :=
  match find? t p with
  | some (.file _) => true
  | _ => false

def isDirectory (t : FileTree) (p : Path) : Bool :=
  match find? t p with
  | some .directory => true
  | _ => false

/-- Names that start with a dot are hidden. -/
def isHidden : Path.Component → Bool
  | .normal name => name.toList.head? == some '.'
  | _ => false

/-- The part of a place below a directory, unless something on the way is hidden. -/
def visibleBelow? (directory place : Path) : Option (List Path.Component) :=
  let (above, inside) := (directory.components, place.components.drop directory.components.length)
  if above.isPrefixOf place.components && inside != [] && !inside.any isHidden then some inside
  else none

/-- The files that a path leads to: the file itself, or all below a directory that are not hidden,
in the order of their paths. -/
def walk (t : FileTree) (p : Path) : Except FileProblem (List Path) := do
  let q ← locate t p
  match t.entry? q with
  | none => .error .notFound
  | some (.file _) => .ok [p]
  | some .directory =>
    .ok (t.files.filterMap
      (fun f ↦ (visibleBelow? q f).map (fun inside ↦ p.join (.ofComponents inside))))

def read (t : FileTree) (p : Path) : Except Fault ByteArray :=
  match locate t p with
  | .error problem => .error (fault problem)
  | .ok q =>
    match t.entry? q with
    | none => .error (fault .notFound)
    | some (.file contents) => .ok contents
    | some .directory => .error (fault .isDirectory)

def readText (t : FileTree) (p : Path) : Except Fault String := do
  match String.fromUTF8? (← read t p) with
  | some text => .ok text
  | none => .error (fault .invalidData)

def withoutEndSlashes (p : Path) : Path :=
  let kept := (p.text.toList.reverse.dropWhile (· == '/')).reverse
  if kept.isEmpty then p else ⟨String.ofList kept⟩

def makeDirectory (t : FileTree) (p : Path) : Except FileProblem FileTree :=
  match locate t (withoutEndSlashes p) with
  | .error problem => .error problem
  | .ok q => if (t.entry? q).isSome then .error .alreadyExists else .ok (t.put q .directory)

/-- Makes a directory unless it is there already. -/
def ensureDirectory (t : FileTree) (p : Path) : Except FileProblem FileTree :=
  match makeDirectory t p with
  | .ok made => .ok made
  | .error problem => if isDirectory t p then .ok t else .error problem

/-- Makes a directory and those above it that are missing.  The number bounds how many there
are. -/
def makeAll : Nat → FileTree → Path → FileTree × Option FileProblem
  | 0, t, _ => (t, none)
  | n + 1, t, p =>
    if p.text.isEmpty then (t, none)
    else
      match makeDirectory t p with
      | .ok made => (made, none)
      | .error .notFound =>
        match p.parent? with
        | none => (t, some .other)
        | some above =>
          match makeAll n t above with
          | (t, some problem) => (t, some problem)
          | (t, none) =>
            match ensureDirectory t p with
            | .ok made => (made, none)
            | .error problem => (t, some problem)
      | .error problem => if isDirectory t p then (t, none) else (t, some problem)

/-- Makes a directory and those above it that are missing. -/
def createDirectory (t : FileTree) (p : Path) : FileTree × Option FileProblem :=
  makeAll (p.components.length + 1) t p

/-- The last segment of a path as it is written. -/
def lastSegment (p : Path) : List Char := (Path.segments p.text.toList).getLast?.getD []

def moveTo (t : FileTree) (p : Path) (contents : ByteArray) : Except FileProblem FileTree :=
  match locate t (withoutEndSlashes p) with
  | .error problem => .error problem
  | .ok q =>
    if p.components.all (· == .root) || [['.'], ['.', '.']].contains (lastSegment p) then
      .error .busy
    else
      match t.entry? q with
      | some .directory => .error .isDirectory
      | _ => if (lastSegment p).isEmpty then .error .notDirectory else .ok (t.put q (.file contents))

/-- The directory in which a file is written before it is moved to its place. -/
def besideDirectory (t : FileTree) (p : Path) : Path :=
  match p.parent? with
  | some d => if d.text.isEmpty then t.workingDirectory else d
  | none => t.workingDirectory

def write (t : FileTree) (p : Path) (contents : ByteArray) : FileTree × Option FileProblem :=
  match createDirectory t (besideDirectory t p) with
  | (t, some problem) => (t, some problem)
  | (t, none) =>
    match moveTo t p contents with
    | .ok written => (written, none)
    | .error problem => (t, some problem)

/-- A disk with nothing but a working directory and the directories above it. -/
def emptyAt (workingDirectory : Path) : FileTree :=
  (workingDirectory :: workingDirectory.ancestors).foldl (fun t p ↦ t.put p .directory)
    ⟨.empty, workingDirectory⟩

end StyleModules.FileTree.Disk
