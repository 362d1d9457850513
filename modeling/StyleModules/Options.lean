import StyleModules.BuildMode.Json
import StyleModules.FileSystem

/-!
# Options

What a build is told from outside: where the project is, where its output goes, which files belong
to it, and how resources are addressed.  Options can be read from a JSON file, in which everything
can be missing.
-/

namespace StyleModules

/-- Where the output maps are written to.  Maps without a path are not written. -/
structure MapPaths where
  resources : Option Path
  bundles : Option Path
  selectors : Option Path
deriving DecidableEq, Inhabited, Repr

/-- The options of a build. -/
structure Options where
  /-- The directory that bundles are written to. -/
  outputDirectory : Option Path
  /-- The project root; without one it is the working directory. -/
  root : Option Path
  mode : BuildMode
  /-- The extensions of the files that belong to the project. -/
  extensions : List String
  mapPaths : MapPaths
  /-- The directories behind namespaces. -/
  namespaces : Table String Path
  /-- What the addresses of resources start with. -/
  publicAddress : String
deriving DecidableEq, Repr

namespace MapPaths

def none : MapPaths := ⟨.none, .none, .none⟩

/-- The usual names of the maps in a directory. -/
def inDirectory (d : Path) : MapPaths :=
  ⟨some (d.join ⟨"resources-to-assets.json"⟩), some (d.join ⟨"hashed-assets.json"⟩),
    some (d.join ⟨"selectors.json"⟩)⟩

end MapPaths

namespace Options

/-- The options that are used where nothing else is said. -/
def standard : Options :=
  ⟨none, none, .production, [".mcss"], .none, .empty, "/"⟩

instance : Inhabited Options := ⟨standard⟩

/-- An extension without the dots in front of it. -/
def withoutDots (extension : String) : List Char := extension.toList.dropWhile (· == '.')

/-- A file belongs to the project. -/
def handles (o : Options) (p : Path) : Bool :=
  match p.extension? with
  | some extension => o.extensions.any (fun e ↦ withoutDots e == extension.toList)
  | none => false

def pathJson (p : Option Path) : Json := .ofOption (fun p ↦ .text p.text) p

def mapPathsJson (m : MapPaths) : Json :=
  .object [
    ("resourcesToAssetsJson", pathJson m.resources),
    ("hashedAssetsJson", pathJson m.bundles),
    ("selectorsJson", pathJson m.selectors)]

def toJson (o : Options) : Json :=
  .object [
    ("destDir", pathJson o.outputDirectory),
    ("basedir", pathJson o.root),
    ("env", o.mode.toJson),
    ("extensions", .array (o.extensions.map .text)),
    ("mapPaths", mapPathsJson o.mapPaths),
    ("namespaces", .object (o.namespaces.entries.map (fun e ↦ (e.1, .text e.2.text)))),
    ("publicUrl", .text o.publicAddress)]

open Json.Reader

def mapPathsShape : Shape MapPaths where
  name := "MapPaths"
  start := .none
  fields := [
    ⟨"resourcesToAssetsJson", false, fun m ↦ return { m with resources := ← optional path }⟩,
    ⟨"hashedAssetsJson", false, fun m ↦ return { m with bundles := ← optional path }⟩,
    ⟨"selectorsJson", false, fun m ↦ return { m with selectors := ← optional path }⟩]
  isOpen := false

def shape : Shape Options where
  name := "ProcessorOptions"
  start := standard
  fields := [
    ⟨"destDir", false, fun o ↦ return { o with outputDirectory := ← optional path }⟩,
    ⟨"basedir", false, fun o ↦ return { o with root := ← optional path }⟩,
    ⟨"env", false, fun o ↦ return { o with mode := ← BuildMode.reader }⟩,
    ⟨"extensions", false, fun o ↦ return { o with extensions := ← list text }⟩,
    ⟨"mapPaths", false, fun o ↦ return { o with mapPaths := ← record mapPathsShape }⟩,
    ⟨"namespaces", false, fun o ↦ return { o with namespaces := ← table path }⟩,
    ⟨"publicUrl", false, fun o ↦ return { o with publicAddress := ← text }⟩]
  isOpen := true

def reader : Json.Reader Options := record shape

def ofFile (fs : FileSystem) (file : Path) : Except Fault Options :=
  match fs.readText file with
  | .error fault => .error (.badConfiguration file fault.report)
  | .ok contents =>
    match Json.read reader contents with
    | .error failure => .error (.badConfiguration file failure.message)
    | .ok options => .ok options

end Options

end StyleModules
