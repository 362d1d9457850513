import StyleModules.FileEvent
import StyleModules.Invalidation
import StyleModules.Options
import StyleModules.OutputMaps
import StyleModules.Transform.Builtin

/-!
# Build sessions

A session keeps a bundle up to date.  It hears what happened to source files, evicts what was made
from them, compiles again what is still there, and writes the bundle with its maps.  A file that
cannot be compiled is reported and does not stop the others.
-/

namespace StyleModules

/-- One build session. -/
structure Session where
  options : Options
  compiler : Compiler
  /-- The directory that bundles are written to. -/
  outputDirectory : Path
  fs : FileSystem
  store : ModuleStore
  maps : OutputMaps

/-- What a session uses in place of what its options say. -/
structure Extras where
  paths : Option PathResolver
  assets : Option AssetResolver
  /-- The transforms that run behind those of every build. -/
  transforms : Pipeline

/-- A file that could not be compiled. -/
structure FileFailure where
  file : Path
  text : String
deriving DecidableEq, Inhabited, Repr

/-- What came of a batch of events. -/
structure BatchReport where
  /-- The number of events that were handled. -/
  processed : Nat
  failures : List FileFailure
  /-- The bundle, unless it was empty. -/
  bundle : Option WrittenBundle
deriving DecidableEq, Inhabited, Repr

namespace Extras

def none : Extras := ⟨.none, .none, .empty⟩

end Extras

namespace BatchReport

def empty : BatchReport := ⟨0, [], none⟩

def isSuccess (r : BatchReport) : Bool := r.failures.isEmpty

end BatchReport

namespace Session

abbrev Outcome (α : Type) := Session × Except Fault α

def rootOf (o : Options) (workingDirectory : Path) : Path :=
  match o.root with
  | some root => (workingDirectory.join root).normalize
  | none => workingDirectory

def outputDirectoryOf (o : Options) (root : Path) : Except Fault Path :=
  match o.outputDirectory with
  | some d => if d.text.isEmpty then .error .noOutputDirectory else .ok (root.join d).normalize
  | none => .error .noOutputDirectory

def namespacesOf (o : Options) (root : Path) : PathResolver :=
  .ofNamespaces (o.namespaces.mapValues (fun d ↦ (root.join d).normalize))

def start (fs : FileSystem) (o : Options) (extras : Extras) : Except Fault Session := do
  let root := rootOf o (← fs.workingDirectory)
  let outputDirectory ← outputDirectoryOf o root
  let paths := extras.paths.getD (namespacesOf o root)
  let assets := extras.assets.getD (.below o.publicAddress)
  let pipeline := Pipeline.forBuild paths ⟨some outputDirectory, root, assets⟩ extras.transforms
  return ⟨o, ⟨root, o.mode, paths, pipeline⟩, outputDirectory, fs, .empty, .empty⟩

def root (s : Session) : Path := s.compiler.root

/-- The place of a file that is given relative to the root. -/
def absolute (s : Session) (file : Path) : Path := s.compiler.absolute file

def isTracked (s : Session) (file : Path) : Bool := s.store.isTracked (s.absolute file)

def importers (s : Session) (file : Path) : List Path := s.store.journal.imports.parents file

def track (s : Session) (file : Path) : Outcome Unit :=
  let (store, outcome) := s.store.track s.compiler s.fs file
  ({ s with store := store }, outcome)

/-- The store as something that files are evicted from. -/
def tracker (c : Compiler) : Invalidation.Tracker ModuleStore :=
  ⟨fun store file ↦ store.dependents c file, fun store file ↦ store.remove c file⟩

/-- Evicts a file and all that was made from it, and tells which files these were. -/
def evict (s : Session) (file : Path) : List Path × Session :=
  let journal := s.store.journal
  let (evicted, store, imports) :=
    Invalidation.evict (tracker s.compiler) s.store journal.imports (s.absolute file)
  (evicted, { s with store := { store with journal := { journal with imports := imports } } })

/-- Compiles an evicted file again if it still exists and is not tracked yet.  The failures so far
are in the order they were met. -/
def retrackOne (state : Session × List String) (file : Path) : Session × List String :=
  let (s, failures) := state
  if !s.fs.isFile file || s.isTracked file then (s, failures)
  else
    match s.track file with
    | (s, .ok ()) => (s, failures)
    | (s, .error fault) => (s, failures ++ [file.text ++ ": " ++ fault.report])

/-- Compiles the evicted dependents of a file again. -/
def retrack (s : Session) (file : Path) (dependents : List Path) : Outcome Unit :=
  match dependents.foldl retrackOne (s, []) with
  | (s, []) => (s, .ok ())
  | (s, failures) =>
    (s, .error (.plain ("Failed to recompile dependents of " ++ file.text ++ ": "
      ++ ", ".intercalate failures)))

/-- Drops those of some files from the maps that are no longer tracked. -/
def forgetUntracked (s : Session) (files : List Path) : Session :=
  let gone := files.filter (fun p ↦ !s.isTracked p)
  { s with maps := gone.foldl (fun m p ↦ m.removeSource (s.compiler.sourceKey p)) s.maps }

def change (s : Session) (file : Path) : Outcome Unit :=
  let (evicted, s) := s.evict file
  match s.track file with
  | (s, .error fault) => (s, .error fault)
  | (s, .ok ()) => s.retrack file evicted.tail

def unlink (s : Session) (file : Path) : Outcome Unit :=
  let (evicted, s) := s.evict file
  let (s, outcome) := s.retrack file evicted.tail
  (s.forgetUntracked evicted, outcome)

def handle (s : Session) (e : FileEvent) : Outcome Unit :=
  match e.change with
  | .init | .add => s.track e.file
  | .change => s.change e.file
  | .unlink => s.unlink e.file

/-- Takes in what happened to a file if that file belongs to the project, and reports it. -/
def handleInBatch (state : Session × BatchReport) (e : FileEvent) : Session × BatchReport :=
  let (s, report) := state
  if !s.options.handles e.file then (s, report)
  else
    let report := { report with processed := report.processed + 1 }
    match s.handle e with
    | (s, .ok ()) => (s, report)
    | (s, .error fault) =>
      (s, { report with failures := report.failures ++ [⟨e.file, fault.report⟩] })

def writeBundle (s : Session) : Outcome (Option WrittenBundle) :=
  let (store, assembled) := s.store.output s.compiler (s.outputDirectory.join ⟨bundleName⟩)
  let s := { s with store := store }
  match assembled with
  | .error fault => (s, .error fault)
  | .ok bundle =>
    let (fs, maps, written) := s.maps.writeBundle s.fs s.outputDirectory bundle
    ({ s with fs := fs, maps := maps }, written)

/-- Writes values to files in order until that fails. -/
def writeAll : List (Option Path × Json) → FileSystem → FileSystem × Option Fault
  | [], fs => (fs, none)
  | (file, value) :: rest, fs =>
    match fs.writeJson file value with
    | (fs, some fault) => (fs, some fault)
    | (fs, none) => writeAll rest fs

/-- Writes the maps that have a path. -/
def writeMaps (s : Session) : Session × Option Fault :=
  let paths := s.options.mapPaths
  let place := fun (p : Option Path) ↦ p.map s.root.join
  let (fs, fault) := writeAll [
    (place paths.resources, s.maps.resourcesJson),
    (place paths.bundles, s.maps.bundlesJson),
    (place paths.selectors, s.maps.selectorsJson)] s.fs
  ({ s with fs := fs }, fault)

/-- Handles some events in order and writes the bundle and its maps. -/
def process (s : Session) (events : List FileEvent) : Outcome BatchReport :=
  let (s, report) := events.foldl handleInBatch (s, .empty)
  match s.writeBundle with
  | (s, .error fault) => (s, .error fault)
  | (s, .ok written) =>
    match s.writeMaps with
    | (s, some fault) => (s, .error fault)
    | (s, none) => (s, .ok { report with bundle := written })

end Session

end StyleModules
