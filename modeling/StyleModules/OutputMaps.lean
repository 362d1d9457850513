import StyleModules.FileSystem
import StyleModules.Json
import StyleModules.ModuleStore
import StyleModules.Namer

/-!
# Output

A bundle is written to a file that is named after its contents.  The output maps tell others which
bundle a source went into, what the bundle is called, and what the classes of a source became.
-/

namespace StyleModules

/-- The name of the one bundle that all sources go into. -/
def bundleName : String := "styles.css"

/-- What is known of the output so far. -/
structure OutputMaps where
  /-- The bundle that each source went into. -/
  resources : Table String String
  /-- The file that each bundle was last written to. -/
  bundles : Table String String
  /-- The composition of each source. -/
  selectors : Table String Composition
deriving DecidableEq, Inhabited, Repr

/-- A bundle that was written. -/
structure WrittenBundle where
  name : String
  file : Path
  /-- The number of bytes. -/
  size : Nat
deriving DecidableEq, Inhabited, Repr

namespace OutputMaps

def empty : OutputMaps := ⟨.empty, .empty, .empty⟩

def removeSource (m : OutputMaps) (key : String) : OutputMaps :=
  { m with resources := m.resources.erase key, selectors := m.selectors.erase key }

/-- Records the composition of a source that went into the bundle. -/
def recordSource (m : OutputMaps) (source : String) (composition : Composition) : OutputMaps :=
  let key := (Path.mk source).resourceKey
  { m with
    resources := m.resources.insert key bundleName
    selectors := m.selectors.insert key composition }

def recordBundle (m : OutputMaps) (name : String) (bundle : Bundle) : OutputMaps :=
  bundle.compositions.entries.foldl (fun m e ↦ m.recordSource e.1 e.2)
    { m with bundles := m.bundles.insert bundleName name }

/-- Writes a bundle into a directory and records it.  An empty bundle is neither written nor
recorded. -/
def writeBundle (m : OutputMaps) (fs : FileSystem) (directory : Path) (bundle : Bundle) :
    FileSystem × OutputMaps × Except Fault (Option WrittenBundle) :=
  if bundle.css.isEmpty then (fs, m, .ok none)
  else
    let name := hashedBundleName bundle.css
    let file := directory.join ⟨name⟩
    match fs.writeText file bundle.css with
    | (fs, some fault) => (fs, m, .error (.during ("Failed to write bundle " ++ file.text) fault))
    | (fs, none) => (fs, m.recordBundle name bundle, .ok (some ⟨name, file, bundle.css.utf8ByteSize⟩))

def textsJson (t : Table String String) : Json :=
  .object (t.entries.map (fun e ↦ (e.1, .text e.2)))

def compositionJson (c : Composition) : Json :=
  .object (c.entries.map (fun e ↦ (e.1, .array (e.2.map .text))))

def resourcesJson (m : OutputMaps) : Json := textsJson m.resources

def bundlesJson (m : OutputMaps) : Json := textsJson m.bundles

def selectorsJson (m : OutputMaps) : Json :=
  .object (m.selectors.entries.map (fun e ↦ (e.1, compositionJson e.2)))

end OutputMaps

/-- Writes a value to a file if there is one to write to. -/
def FileSystem.writeJson (fs : FileSystem) (file : Option Path) (value : Json) :
    FileSystem × Option Fault :=
  match file with
  | none => (fs, none)
  | some file =>
    let (fs, fault) := fs.writeText file value.pretty
    (fs, fault.map (.during ("Failed to write " ++ file.text)))

end StyleModules
