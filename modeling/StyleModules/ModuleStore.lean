import StyleModules.Composition
import StyleModules.Imports
import StyleModules.ModuleGraph
import StyleModules.Namer

/-!
# Module store

Compiles stylesheets one file at a time and assembles all files it tracks into one bundle.  A file
that composes classes of another file makes that file tracked too.

For each file the imports are inlined, the transforms before renaming run, the `composes`
declarations are taken out, the files they name are tracked, and then the classes are renamed
between the remaining stages.  What a failed attempt has already done to the graph and the journal
stays.
-/

namespace StyleModules

/-- How modules are compiled. -/
structure Compiler where
  /-- The project root, from which relative paths are seen and files are named. -/
  root : Path
  mode : BuildMode
  resolver : PathResolver
  pipeline : Pipeline

/-- A compiled file. -/
structure Module where
  stylesheet : Stylesheet
  composition : Composition
deriving Inhabited, Repr

/-- The files that are tracked, what they compose from, and what transforms wrote down. -/
structure ModuleStore where
  graph : ModuleGraph
  modules : PathMap Module
  journal : Journal
deriving Inhabited

/-- A bundle of all tracked files. -/
structure Bundle where
  css : String
  /-- The composition of each file, by the name of the file in output maps. -/
  compositions : Table String Composition
deriving Inhabited, Repr

namespace Compiler

/-- The place of a file that is given relative to the root. -/
def absolute (c : Compiler) (p : Path) : Path := (c.root.join p).normalize

/-- The name of a file in output maps. -/
def sourceKey (c : Compiler) (p : Path) : String := (Path.projectPath c.root p).resourceKey

def scopedName (c : Compiler) (file : Path) (name : String) : String :=
  (Namer.mk c.mode).name (c.sourceKey file) name

/-- The file that a `composes` declaration names. -/
def resolve (c : Compiler) (fs : FileSystem) (file : Path) (reference : String) :
    Except Fault Path :=
  let resolved := (c.resolver.absolute reference file (.stylesheet false)).getD ⟨reference⟩
  if fs.isFile resolved then .ok resolved else .error (.unresolved file reference resolved)

end Compiler

namespace ModuleStore

def empty : ModuleStore := ⟨.empty, .empty, .empty⟩

/-- The store after an attempt, and what came of it. -/
abbrev Outcome (α : Type) := ModuleStore × Except Fault α

def isTracked (s : ModuleStore) (p : Path) : Bool := s.modules.contains p

def composition? (s : ModuleStore) (p : Path) : Option Composition :=
  (s.modules.get? p).map Module.composition

/-- A file on its way to a module, with the declarations that were taken out of it. -/
structure Draft where
  job : Job
  composes : List Composes

/-- A warning about a `composes` declaration that cannot be understood. -/
def ignored (file : Path) (value : String) : Diagnostic :=
  ⟨"Ignoring invalid composes: " ++ value, some "mcss-module-store", some file, none⟩

def load (c : Compiler) (fs : FileSystem) (file : Path) :
    Except Fault (List ImportMessage × Stylesheet) :=
  match fs.readText file with
  | .error fault => .error (.during ("Failed to read " ++ file.text) fault)
  | .ok code =>
    match Stylesheet.read file code with
    | .error fault => .error fault
    | .ok sheet =>
      match Imports.inline ⟨fs, c.resolver⟩ sheet with
      | (_, .error fault) => .error fault
      | (messages, .ok inlined) => .ok (messages, inlined)

/-- Takes the `composes` declarations out of a stylesheet. -/
def extract (file : Path) (job : Job) : Draft :=
  let found := job.stylesheet.composes
  let warned := (found.filterMap (fun d ↦ match d with
    | .error value => some (ignored file value)
    | .ok _ => none)).foldl (fun j d ↦ j.warn d) job
  ⟨warned.edit Stylesheet.withoutComposes, found.filterMap Except.toOption⟩

/-- Compiles a file up to the point where the files it composes from are needed. -/
def prepare (c : Compiler) (fs : FileSystem) (file : Path) (journal : Journal) :
    Journal × Except Fault Draft :=
  match load c fs file with
  | .error fault => (journal, .error fault)
  | .ok (messages, sheet) =>
    match c.pipeline.run .before { Job.start journal sheet with messages := messages } with
    | (job, some fault) => (job.journal, .error fault)
    | (job, none) => (job.journal, .ok (extract file job))

/-- The references to other files in some declarations. -/
def references (composes : List Composes) : List String :=
  composes.filterMap fun d ↦
    match d.composed.source with
    | .file reference => some reference
    | _ => none

/-- The global names that a class of a tracked file expands to. -/
def exportedNames (c : Compiler) (s : ModuleStore) (file : Path) (name : String) : List String :=
  ((s.composition? file).bind (fun known ↦ known.get? name)).getD [c.scopedName file name]

/-- The global names behind a reference, given the files that references stand for. -/
def exported (c : Compiler) (s : ModuleStore) (files : List (String × Path)) (reference : String)
    (name : String) : List String :=
  match files.lookup reference with
  | some file => exportedNames c s file name
  | none => []

def rename (own : String → String) (sheet : Stylesheet) : Stylesheet :=
  sheet.mapChunks (StyleChunk.mapRules (Css.Rule.mapStylesOfAll fun r ↦
    { r with selectors := Css.Selector.mapClasses own r.selectors }))

/-- Renames the local classes of a stylesheet whose file has a key, and makes its composition.  The
table says which files the references of the declarations stand for. -/
def scope (c : Compiler) (s : ModuleStore) (key : String) (sheet : Stylesheet)
    (composes : List Composes) (files : List (String × Path)) : Stylesheet × Composition :=
  let own := (Namer.mk c.mode).name key
  (rename own sheet, Composition.build own (exported c s files) sheet.styles composes)

/-- Compiles a file to its end, once the files it composes from are tracked. -/
def finish (c : Compiler) (file : Path) (draft : Draft) (files : List (String × Path))
    (s : ModuleStore) : Outcome Unit :=
  let linked := { s with graph := files.foldl (fun g e ↦ g.add file e.2) s.graph }
  match c.pipeline.run .processing { draft.job with journal := s.journal } with
  | (job, some fault) => ({ linked with journal := job.journal }, .error fault)
  | (job, none) =>
    let result := scope c linked (c.sourceKey file) job.stylesheet draft.composes files
    match c.pipeline.run .after (job.edit fun _ ↦ result.1) with
    | (job, some fault) => ({ linked with journal := job.journal }, .error fault)
    | (job, none) =>
      ({ linked with
          modules := linked.modules.insert file ⟨job.stylesheet, result.2⟩
          journal := job.journal },
        .ok ())

/-- Tracks the files that references stand for, each reference once. -/
def trackReferences (c : Compiler) (fs : FileSystem) (track : Path → ModuleStore → Outcome Unit)
    (file : Path) : List String → List (String × Path) → ModuleStore →
    Outcome (List (String × Path))
  | [], found, s => (s, .ok found)
  | r :: rs, found, s =>
    if (found.lookup r).isSome then trackReferences c fs track file rs found s
    else
      match c.resolve fs file r with
      | .error fault => (s, .error fault)
      | .ok target =>
        match track target s with
        | (s, .error fault) => (s, .error fault)
        | (s, .ok ()) => trackReferences c fs track file rs (found ++ [(r, target)]) s

/-- Tracks a file unless it is tracked already or is being compiled.  The number bounds the chain
of files that compose from each other; `started` are those that are being compiled. -/
def trackFrom (c : Compiler) (fs : FileSystem) :
    Nat → List Path → Path → ModuleStore → Outcome Unit
  | 0, _, file, s => (s, .error (.endless file))
  | limit + 1, started, file, s =>
    if s.isTracked file || file.isAmong started then (s, .ok ())
    else
      match prepare c fs file s.journal with
      | (journal, .error fault) => ({ s with journal := journal }, .error fault)
      | (journal, .ok draft) =>
        match trackReferences c fs (trackFrom c fs limit (file :: started)) file
            (references draft.composes) [] { s with journal := journal } with
        | (s, .error fault) => (s, .error fault)
        | (s, .ok files) => finish c file draft files s

def track (c : Compiler) (fs : FileSystem) (file : Path) (s : ModuleStore) : Outcome Unit :=
  trackFrom c fs fs.chainLimit [] (c.absolute file) s

def remove (c : Compiler) (file : Path) (s : ModuleStore) : Except Fault ModuleStore :=
  let place := c.absolute file
  if s.isTracked place then
    .ok { s with modules := s.modules.erase place, graph := s.graph.clear place }
  else .error (.untracked place)

/-- The tracked files that compose from a tracked file. -/
def dependents (c : Compiler) (s : ModuleStore) (file : Path) : Except Fault (List Path) :=
  let place := c.absolute file
  if s.isTracked place then .ok ((s.graph.dependents place).filter s.isTracked)
  else .error (.untracked place)

/-- Adds a file behind all files it composes from to the files visited and the order so far.  The
number bounds the chain of files. -/
def visit (s : ModuleStore) : Nat → Path → List Path × List Path → List Path × List Path
  | 0, _, done => done
  | limit + 1, file, (visited, order) =>
    if file.isAmong visited then (visited, order)
    else
      let dependencies := (s.graph.dependencies file).filter s.isTracked
      let (visited, order) :=
        dependencies.foldl (fun done d ↦ visit s limit d done) (file :: visited, order)
      (visited, order ++ [file])

/-- The tracked files, each behind the files it composes from. -/
def bundleOrder (s : ModuleStore) : List Path :=
  (s.modules.keys.foldl (fun done p ↦ visit s (s.modules.size + 1) p done) ([], [])).2

/-- The chunks of all tracked files as they stand in the bundle. -/
def bundleChunks (s : ModuleStore) : List StyleChunk :=
  s.bundleOrder.flatMap fun p ↦
    match s.modules.get? p with
    | some m => m.stylesheet.chunks
    | none => []

/-- Assembles the bundle that is to be written to a place. -/
def output (c : Compiler) (place : Path) (s : ModuleStore) : Outcome Bundle :=
  match c.pipeline.run .done (Job.start s.journal ⟨place, s.bundleChunks⟩) with
  | (job, some fault) => ({ s with journal := job.journal }, .error fault)
  | (job, none) =>
    ({ s with journal := job.journal },
      .ok ⟨job.stylesheet.css (!c.mode.isDevelopment),
        .ofList (s.modules.toList.map (fun e ↦ (c.sourceKey e.1, e.2.composition)))⟩)

end ModuleStore

end StyleModules
