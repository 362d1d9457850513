import StyleModules.Session

/-!
# Command line

One argument names the directory that holds the sources; options tell where the output goes.  Every
source that is found becomes an event of one session.  Options can be written with their value
behind an equals sign or as the next argument, and behind `--` nothing is an option.
-/

namespace StyleModules.CommandLine

/-- The options that take a path. -/
inductive PathOption where
  /-- The directory that bundles are written to. -/
  | output
  /-- A file with further options. -/
  | configuration
  /-- The directory that the output maps are written to. -/
  | maps
deriving DecidableEq, Inhabited, Repr

/-- Why the arguments do not lead to a build. -/
inductive Refusal where
  | helpAsked
  | versionAsked
  | misused
deriving DecidableEq, Inhabited, Repr

/-- The arguments as far as they were read. -/
structure Given where
  source : Option Path
  paths : List (PathOption × Path)
  development : Bool
  /-- The option whose value comes next. -/
  awaited : Option PathOption
  /-- Nothing that follows is an option. -/
  isPlain : Bool
deriving DecidableEq, Inhabited, Repr

/-- What is asked for. -/
structure Request where
  source : Path
  output : Option Path
  configuration : Option Path
  maps : Option Path
  development : Bool
deriving DecidableEq, Inhabited, Repr

namespace PathOption

def named? (name : List Char) : Option PathOption :=
  if name = "dest".toList then some output
  else if name = "config".toList then some configuration
  else if name = "maps".toList then some maps
  else none

end PathOption

namespace Given

def start : Given := ⟨none, [], false, none, false⟩

/-- Takes in a path; there can be only one. -/
def addSource (g : Given) (arg : String) : Except Refusal Given :=
  if g.source.isSome || g.awaited.isSome || arg.isEmpty then .error .misused
  else .ok { g with source := some ⟨arg⟩ }

/-- Takes in the value of an option, which can be given only once. -/
def addPath (g : Given) (o : PathOption) (value : String) : Except Refusal Given :=
  if (g.paths.lookup o).isSome || value.isEmpty then .error .misused
  else .ok { g with paths := g.paths ++ [(o, ⟨value⟩)], awaited := none }

/-- Takes in a flag, which has no value. -/
def addFlag (g : Given) (name : List Char) : Except Refusal Given :=
  if name = "dev".toList then
    if g.development then .error .misused else .ok { g with development := true }
  else if name = "help".toList then .error .helpAsked
  else if name = "version".toList then .error .versionAsked
  else .error .misused

/-- Takes in an option that is written out, without the dashes in front of it. -/
def addLong (g : Given) (text : List Char) : Except Refusal Given :=
  let name := text.takeWhile (· ≠ '=')
  match PathOption.named? name, text.drop name.length with
  | some o, [] => .ok { g with awaited := some o }
  | some o, _ :: value => g.addPath o (String.ofList value)
  | none, [] => g.addFlag name
  | none, _ :: _ => .error .misused

def add (g : Given) (arg : String) : Except Refusal Given :=
  if g.isPlain then g.addSource arg
  else
    match g.awaited, arg.toList with
    | some _, '-' :: _ :: _ => .error .misused
    | some o, _ => g.addPath o arg
    | none, ['-', '-'] => .ok { g with isPlain := true }
    | none, '-' :: '-' :: text => g.addLong text
    | none, '-' :: 'h' :: _ => .error .helpAsked
    | none, '-' :: 'V' :: _ => .error .versionAsked
    | none, '-' :: _ :: _ => .error .misused
    | none, _ => g.addSource arg

/-- What is asked for, once all arguments are read. -/
def request (g : Given) : Except Refusal Request :=
  match g.source, g.awaited with
  | some source, none =>
    .ok ⟨source, g.paths.lookup .output, g.paths.lookup .configuration, g.paths.lookup .maps,
      g.development⟩
  | _, _ => .error .misused

end Given

def read (args : List String) : Except Refusal Request := do
  (← args.foldlM Given.add .start).request

/-- The options of a build.  What the arguments say counts more than what the configuration says,
and paths in arguments are seen from the working directory. -/
def optionsFor (r : Request) (workingDirectory : Path) (o : Options) : Options :=
  { o with
    root := some (o.root.getD (workingDirectory.join r.source))
    outputDirectory := (r.output.map workingDirectory.join).or o.outputDirectory
    mode := if r.development then .development else o.mode
    mapPaths := match r.maps with
      | some d => MapPaths.inDirectory (workingDirectory.join d)
      | none => o.mapPaths }

def configured (r : Request) (fs : FileSystem) : Except Fault Options :=
  match r.configuration with
  | some file => Options.ofFile fs file
  | none => .ok .standard

def sources (s : Session) (disk : FileTree) (directory : Path) : Except Fault (List FileEvent) :=
  match FileTree.Disk.walk disk directory with
  | .error problem =>
    let cause := FileTree.Disk.fault problem
    .error (.during ("IO error for operation on " ++ directory.text ++ ": " ++ cause.report) cause)
  | .ok files =>
    .ok ((files.filter s.options.handles).map (fun p ↦ ⟨.init, Path.projectPath s.root p⟩))

/-- Starts the session that is asked for, with its first events. -/
def prepare (r : Request) (disk : FileTree) : Except Fault (Session × List FileEvent) := do
  let fs := FileSystem.disk disk
  let o := optionsFor r disk.workingDirectory (← configured r fs)
  let s ← Session.start fs o .none
  return (s, ← sources s disk (disk.workingDirectory.join r.source))

def faultOf (report : BatchReport) : Option Fault :=
  if report.isSuccess then none
  else some (.plain (toString report.failures.length ++ " stylesheet(s) failed to compile"))

def build (r : Request) (disk : FileTree) : FileSystem × Option Fault :=
  match prepare r disk with
  | .error fault => (.disk disk, some fault)
  | .ok (s, events) =>
    match s.process events with
    | (s, .error fault) => (s.fs, some fault)
    | (s, .ok report) => (s.fs, faultOf report)

/-- What a run leaves behind. -/
structure Outcome where
  code : Nat
  errorText : String
  fs : FileSystem

/-- A fault as it is shown to the user, with the causes behind it. -/
def errorText (f : Fault) : String :=
  match f.messages with
  | [] => ""
  | [text] => "Error: " ++ text ++ "\n"
  | text :: causes =>
    "Error: " ++ text ++ "\n\nCaused by:\n" ++ String.join (causes.map (fun c ↦ "    " ++ c ++ "\n"))

def Refusal.code : Refusal → Nat
  | helpAsked => 0
  | versionAsked => 0
  | misused => 2

def run (args : List String) (disk : FileTree) : Outcome :=
  match read args with
  | .error refusal => ⟨refusal.code, "", .disk disk⟩
  | .ok r =>
    match build r disk with
    | (fs, none) => ⟨0, "", fs⟩
    | (fs, some fault) => ⟨1, errorText fault, fs⟩

end StyleModules.CommandLine
