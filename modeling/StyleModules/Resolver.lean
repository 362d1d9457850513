import StyleModules.Path
import StyleModules.Reference
import StyleModules.Table

/-!
# Resolvers

A path resolver finds the file that a reference names.  The usual one takes a reference relative
to the file it is written in, or looks its namespace up in a table of directories.  An asset
resolver gives the address under which a resource is published.
-/

namespace StyleModules

/-- How a reference is resolved. -/
structure ResolveOptions where
  /-- The extension, without its dot, for references without one. -/
  extension : Option String
  /-- References are written in a directory, not in a file. -/
  sourceIsDirectory : Bool
  /-- A relative result always starts with a dot. -/
  prependDot : Bool
deriving DecidableEq, Inhabited, Repr

/-- Finds the files that references name. -/
structure PathResolver where
  /-- The place that a reference names, as seen from a file or directory. -/
  absolute : String → Path → ResolveOptions → Option Path
  /-- How a reference is written relative to the directory it is seen from. -/
  relative : String → Path → ResolveOptions → Option String

/-- Gives the address of a resource. -/
structure AssetResolver where
  address : String → String

namespace ResolveOptions

def stylesheetExtension : String := "mcss"

/-- References to stylesheets can go without their extension. -/
def stylesheet (sourceIsDirectory : Bool) : ResolveOptions :=
  ⟨some stylesheetExtension, sourceIsDirectory, false⟩

/-- The directory that references are seen from. -/
def directory? (options : ResolveOptions) (source : Path) : Option Path :=
  if options.sourceIsDirectory then some source else source.parent?

def complete (options : ResolveOptions) (p : Path) : Path :=
  match options.extension, p.extension? with
  | some extension, none => p.addExtension extension
  | _, _ => p

end ResolveOptions

namespace PathResolver

/-- What a reference names before the extension is looked at. -/
def target? (namespaces : Table String Path) (reference : String) (source : Path)
    (options : ResolveOptions) : Option Path :=
  match Reference.splitNamespace? reference with
  | some (name, inside) => (namespaces.get? name).map (fun d ↦ (d.join ⟨inside⟩).normalize)
  | none => (options.directory? source).map (fun d ↦ (d.join ⟨reference⟩).normalize)

/-- Resolves relative and namespaced references; external ones are not resolved. -/
def absoluteIn (namespaces : Table String Path) (reference : String) (source : Path)
    (options : ResolveOptions) : Option Path :=
  if reference.isEmpty || Reference.isExternal reference then none
  else (target? namespaces reference source options).map options.complete

/-- Writes a relative path with a dot in front where it is to have one. -/
def withDot (options : ResolveOptions) (text : String) : String :=
  if options.prependDot && !text.startsWith "." then "./" ++ text else text

/-- Resolves references and writes them relative to the directory they are seen from. -/
def relativeIn (namespaces : Table String Path) (reference : String) (source : Path)
    (options : ResolveOptions) : Option String := do
  let target ← absoluteIn namespaces reference source options
  let base ← options.directory? source
  let path ← Path.relativeTo? target base
  some (withDot options path.text)

/-- The resolver for some namespaces and their directories. -/
def ofNamespaces (namespaces : Table String Path) : PathResolver :=
  ⟨absoluteIn namespaces, relativeIn namespaces⟩

/-- The resolver that knows some references by heart and no others. -/
def ofTable (known : Table String String) : PathResolver :=
  ⟨fun reference _ _ ↦ (known.get? reference).map Path.mk,
    fun reference _ _ ↦ known.get? reference⟩

end PathResolver

namespace AssetResolver

def withoutEndSlashes (text : String) : String :=
  String.ofList ((text.toList.reverse.dropWhile (· == '/')).reverse)

def withoutStartSlashes (text : String) : String :=
  String.ofList (text.toList.dropWhile (· == '/'))

/-- Every resource is below one public address. -/
def below (address : String) : AssetResolver :=
  ⟨fun resource ↦ withoutEndSlashes address ++ "/" ++ withoutStartSlashes resource⟩

/-- The resolver that knows the addresses of some resources by heart and makes up all others. -/
def ofTable (known : Table String String) (makeUp : String → String) : AssetResolver :=
  ⟨fun resource ↦ (known.get? resource).getD (makeUp resource)⟩

end AssetResolver

end StyleModules
